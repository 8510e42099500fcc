import CachePool.Pkg
import CachePool.Lib.BitField

/-!
# The cache interconnect of a tile (`tcdm_cache_interco`)

The combinational core of the module, for a constant configuration: classification of an address
as private or shared, selection of the crossbar output for a request (`genReqSel`) and of the
crossbar input for a response (`genRspSel`), and the rotation that hides the routing bits from the
cache bank (`genScramble`).

Bits of a part-select that lie outside the 32-bit address read as zero.

* `genReqSel_eq` — where a request is sent; `genRspSel_home`, `genRspSel_remote` — and a response.
* `addrRot_eq_park` — the rotation is `BitField.park` whenever the routing field ends inside the
  address and the shift amount does not wrap.
-/

set_option autoImplicit false

namespace CachePool

/-- The peripheral's configuration outputs `dynamic_offset_o`, `l1d_private_o` and
`private_start_addr_o`, as they arrive at every tile. -/
structure PartCfg where
  dynamicOffset : BitVec 5
  l1dPrivate : BitVec 4
  privateStartAddr : BitVec 32
  deriving DecidableEq, Repr

/-- The tile's `num_private_cache = l1d_private_i[2:0]`. -/
def PartCfg.numPrivateCache (cfg : PartCfg) : Nat := cfg.l1dPrivate.toNat % 2 ^ 3

theorem PartCfg.numPrivateCache_le (cfg : PartCfg) :
    cfg.numPrivateCache ≤ cfg.l1dPrivate.toNat := Nat.mod_le _ _

namespace Interco

variable (P : Params) (cfg : PartCfg)

/-! ## Partition control -/

/-- `num_private_cache_q`: the tile's three bits through the port's `[$clog2(NumCache):0]`. -/
def numPrivateCacheQ : Nat := cfg.numPrivateCache % 2 ^ P.privWidth

/-- `num_shared_cache_q`, a subtraction in `$clog2(NumCache)+1` bits. -/
def numSharedCacheQ : Nat :=
  (P.numCache % 2 ^ P.privWidth + 2 ^ P.privWidth - numPrivateCacheQ P cfg) % 2 ^ P.privWidth

/-- `($clog2(NumCache)+1)'(NumCache)`. -/
def numCacheW : Nat := P.numCache % 2 ^ P.privWidth

/-- `gen_is_private`. -/
def isPrivate (addr : BitVec 32) : Bool := decide (cfg.privateStartAddr ≤ addr)

@[simp] theorem numCacheW_eq : numCacheW P = P.numCache := Nat.mod_eq_of_lt P.numCache_lt

variable {P cfg}

theorem numPrivateCacheQ_eq (h : cfg.numPrivateCache ≤ P.numCache) :
    numPrivateCacheQ P cfg = cfg.numPrivateCache :=
  Nat.mod_eq_of_lt (Nat.lt_of_le_of_lt h P.numCache_lt)

theorem numSharedCacheQ_eq (h : cfg.numPrivateCache ≤ P.numCache) :
    numSharedCacheQ P cfg = P.numCache - cfg.numPrivateCache := by
  have hlt := P.numCache_lt
  rw [numSharedCacheQ, numPrivateCacheQ_eq h, Nat.mod_eq_of_lt hlt,
    show P.numCache + 2 ^ P.privWidth - cfg.numPrivateCache =
      (P.numCache - cfg.numPrivateCache) + 2 ^ P.privWidth by omega,
    Nat.add_mod_right, Nat.mod_eq_of_lt (by omega)]

variable (P cfg)

/-! ## Request routing -/

/-- `addr[dynamic_offset_i +: CacheBankBits]`. -/
def addrBank (addr : BitVec 32) : Nat :=
  (addr >>> cfg.dynamicOffset.toNat).toNat % 2 ^ P.cacheBankBits

/-- `addr[(dynamic_offset_i + CacheBankBits) +: TileIDWidth]`. -/
def addrTile (addr : BitVec 32) : Nat :=
  (addr >>> (cfg.dynamicOffset.toNat + P.cacheBankBits)).toNat % 2 ^ P.tileIDWidth

def coreSel (x : Nat) : Nat := x % 2 ^ P.numOutSelBits

/-- `local_sel` and `core_req_sel` of one input port. -/
structure ReqSel where
  localSel : Bool
  coreReqSel : Nat
  deriving DecidableEq, Repr

/-- The crossbar output of a request that leaves the tile. -/
def remoteSel (addr : BitVec 32) : Nat :=
  coreSel P (P.numCache + addrTile P cfg addr % P.numRemotePort)

/-- `gen_req_sel`: the crossbar output an address is sent to in tile `tileId`. -/
def genReqSel (tileId : Nat) (addr : BitVec 32) : ReqSel :=
  let np := numPrivateCacheQ P cfg
  let bank := addrBank P cfg addr
  let here := decide (addrTile P cfg addr = tileId)
  if np = numCacheW P ∨ P.numTiles = 1 then
    -- all-private or single-tile
    ⟨true, coreSel P bank⟩
  else if np = 0 then
    -- all-shared
    ⟨here, if here then coreSel P bank else remoteSel P cfg addr⟩
  else if isPrivate cfg addr then
    -- mixed, private request: always local
    ⟨true, coreSel P (bank % np)⟩
  else
    -- mixed, shared request; the sum is formed in `$clog2(NumCache)+1` bits
    ⟨here, if here then coreSel P ((np + bank % numSharedCacheQ P cfg) % 2 ^ P.privWidth)
           else remoteSel P cfg addr⟩

/-- The bank field of an address folded into the partition the address belongs to. -/
def bankSel (addr : BitVec 32) : Nat :=
  let np := cfg.numPrivateCache
  let bank := addrBank P cfg addr
  if np = P.numCache ∨ P.numTiles = 1 ∨ np = 0 then bank
  else if isPrivate cfg addr then bank % np else np + bank % (P.numCache - np)

/-- The partition does not let the address leave the tile it is issued in. -/
def staysLocal (addr : BitVec 32) : Bool :=
  decide (cfg.numPrivateCache = P.numCache ∨ P.numTiles = 1) ||
    (decide (cfg.numPrivateCache ≠ 0) && isPrivate cfg addr)

variable {P cfg}

theorem addrBank_lt (addr : BitVec 32) : addrBank P cfg addr < 2 ^ P.cacheBankBits :=
  Nat.mod_lt _ (Nat.two_pow_pos _)

theorem addrBank_zero : addrBank P cfg 0#32 = 0 := by simp [addrBank]

theorem addrTile_zero : addrTile P cfg 0#32 = 0 := by simp [addrTile]

/-- The bank field has as many values as bits of it lie in the address. -/
theorem addrBank_lt_field (addr : BitVec 32) :
    addrBank P cfg addr < 2 ^ min P.cacheBankBits (32 - cfg.dynamicOffset.toNat) := by
  rcases Nat.le_total P.cacheBankBits (32 - cfg.dynamicOffset.toNat) with hle | hle
  · rw [Nat.min_eq_left hle]
    exact addrBank_lt addr
  · rw [Nat.min_eq_right hle]
    refine Nat.lt_of_le_of_lt (Nat.mod_le _ _) ?_
    rw [BitVec.toNat_ushiftRight, Nat.shiftRight_eq_div_pow,
      Nat.div_lt_iff_lt_mul (Nat.two_pow_pos _), ← Nat.pow_add,
      Nat.sub_add_cancel (by have := cfg.dynamicOffset.isLt; omega)]
    exact addr.isLt

/-- Every value of the field is taken. -/
theorem exists_addrBank {b : Nat}
    (hb : b < 2 ^ min P.cacheBankBits (32 - cfg.dynamicOffset.toNat)) :
    ∃ addr, addrBank P cfg addr = b := by
  have ho := cfg.dynamicOffset.isLt
  have hsmall : b < 2 ^ (32 - cfg.dynamicOffset.toNat) :=
    Nat.lt_of_lt_of_le hb (Nat.pow_le_pow_right (by omega) (Nat.min_le_right _ _))
  have hfield : b < 2 ^ P.cacheBankBits :=
    Nat.lt_of_lt_of_le hb (Nat.pow_le_pow_right (by omega) (Nat.min_le_left _ _))
  have hword : b * 2 ^ cfg.dynamicOffset.toNat < 2 ^ 32 := by
    have h1 : b * 2 ^ cfg.dynamicOffset.toNat <
        2 ^ (32 - cfg.dynamicOffset.toNat) * 2 ^ cfg.dynamicOffset.toNat :=
      Nat.mul_lt_mul_of_pos_right hsmall (Nat.two_pow_pos _)
    rwa [← Nat.pow_add, Nat.sub_add_cancel (by omega)] at h1
  refine ⟨BitVec.ofNat 32 (b * 2 ^ cfg.dynamicOffset.toNat), ?_⟩
  rw [addrBank, BitVec.toNat_ushiftRight, BitVec.toNat_ofNat, Nat.mod_eq_of_lt hword,
    Nat.shiftRight_eq_div_pow, Nat.mul_div_cancel _ (Nat.two_pow_pos _), Nat.mod_eq_of_lt hfield]

theorem coreSel_of_lt {x : Nat} (h : x < P.numCache + P.numRemotePort) : coreSel P x = x :=
  Nat.mod_eq_of_lt (Nat.lt_of_lt_of_le h (le_two_pow_clog2 _))

/-- The bank field fits a crossbar index, also where it names no bank. -/
theorem coreSel_addrBank (addr : BitVec 32) :
    coreSel P (addrBank P cfg addr) = addrBank P cfg addr := by
  apply Nat.mod_eq_of_lt
  refine Nat.lt_of_lt_of_le (addrBank_lt addr) (Nat.pow_le_pow_right (by omega) ?_)
  exact Nat.clog_mono_right 2 (by omega)

theorem remoteSel_eq (hR : 0 < P.numRemotePort) (addr : BitVec 32) :
    remoteSel P cfg addr = P.numCache + addrTile P cfg addr % P.numRemotePort :=
  coreSel_of_lt (by have := Nat.mod_lt (addrTile P cfg addr) hR; omega)

/-- **What `gen_req_sel` computes**, widths resolved: a request stays in the tile when the partition
says so or its tile field names the tile, and then goes to `bankSel`. -/
theorem genReqSel_eq (h : cfg.numPrivateCache ≤ P.numCache) (t : Nat) (addr : BitVec 32) :
    genReqSel P cfg t addr =
      if staysLocal P cfg addr = true ∨ addrTile P cfg addr = t then ⟨true, bankSel P cfg addr⟩
      else ⟨false, remoteSel P cfg addr⟩ := by
  simp only [genReqSel, numPrivateCacheQ_eq h, numSharedCacheQ_eq h, numCacheW_eq, staysLocal,
    bankSel, coreSel_addrBank]
  have hlt := P.numCache_lt
  by_cases h1 : cfg.numPrivateCache = P.numCache ∨ P.numTiles = 1
  · have h1' : cfg.numPrivateCache = P.numCache ∨ P.numTiles = 1 ∨ cfg.numPrivateCache = 0 := by
      tauto
    simp [h1, h1']
  · rw [if_neg h1]
    rw [not_or] at h1
    by_cases h0 : cfg.numPrivateCache = 0
    · have hN : ¬ 0 = P.numCache := h0 ▸ h1.1
      by_cases ht : addrTile P cfg addr = t <;> simp [h0, h1, ht, hN]
    · rw [if_neg h0]
      by_cases hp : isPrivate cfg addr = true
      · have hb := Nat.mod_lt (addrBank P cfg addr) (Nat.pos_of_ne_zero h0)
        have hs : coreSel P (addrBank P cfg addr % cfg.numPrivateCache) =
            addrBank P cfg addr % cfg.numPrivateCache := coreSel_of_lt (by omega)
        simp [h0, h1, hp, hs]
      · have hb := Nat.mod_lt (addrBank P cfg addr) (show P.numCache - cfg.numPrivateCache > 0 by omega)
        have hs : coreSel P ((cfg.numPrivateCache +
              addrBank P cfg addr % (P.numCache - cfg.numPrivateCache)) % 2 ^ P.privWidth) =
            cfg.numPrivateCache + addrBank P cfg addr % (P.numCache - cfg.numPrivateCache) := by
          rw [Nat.mod_eq_of_lt (by omega), coreSel_of_lt (by omega)]
        by_cases ht : addrTile P cfg addr = t <;> simp [h0, h1, hp, ht, hs]

/-! ## Response routing -/

variable (P) in
def memSel (x : Nat) : Nat := x % 2 ^ P.numInpSelBits

variable (P) in
/-- `gen_rsp_sel`: the crossbar input a response with these user fields returns to in tile
`tileId`. -/
def genRspSel (tileId : Nat) (user : TcdmUser) : Nat :=
  if user.tileId ≠ tileId then memSel P (P.numCores + user.tileId % P.numRemotePort)
  else memSel P user.coreId

theorem memSel_of_lt {x : Nat} (h : x < P.numCores + P.numRemotePort) : memSel P x = x :=
  Nat.mod_eq_of_lt (Nat.lt_of_lt_of_le h (le_two_pow_clog2 _))

theorem genRspSel_home {t : Nat} {u : TcdmUser} (ht : u.tileId = t) (hc : u.coreId < P.numCores) :
    genRspSel P t u = u.coreId := by
  rw [genRspSel, if_neg (by simp [ht]), memSel_of_lt (by omega)]

theorem genRspSel_remote {t : Nat} {u : TcdmUser} (ht : u.tileId ≠ t) (hR : 0 < P.numRemotePort) :
    genRspSel P t u = P.numCores + u.tileId % P.numRemotePort := by
  have := Nat.mod_lt u.tileId hR
  rw [genRspSel, if_pos ht, memSel_of_lt (by omega)]

/-! ## Output-side address rotation -/

variable (P cfg)

/-- `bits_to_rotate` of bank port `port`. -/
def bitsToRotate (port : Nat) : Nat :=
  if numPrivateCacheQ P cfg = 0 then
    (P.cacheBankBits + P.tileBits) % 2 ^ P.rotWidth
  else if numPrivateCacheQ P cfg = numCacheW P then
    P.cacheBankBits % 2 ^ P.rotWidth
  else if port < numPrivateCacheQ P cfg then
    P.cacheBankBits % 2 ^ P.rotWidth
  else
    (P.cacheBankBits + P.tileBits) % 2 ^ P.rotWidth

/-- `a - b` on 32-bit unsigned integers. -/
def subU32 (a b : Nat) : Nat := (a + 2 ^ 32 - b) % 2 ^ 32

/-- The sum `dynamic_offset + bits_to_rotate` as a shift amount: it is self-determined, hence as
wide as the wider of its operands. -/
def shiftSum (n : Nat) : Nat := (cfg.dynamicOffset.toNat + n) % 2 ^ max 5 P.rotWidth

/-- The rotation by `n` routing bits. -/
def addrRot (n : Nat) (addr : BitVec 32) : BitVec 32 :=
  let o := cfg.dynamicOffset.toNat
  let lower := addr &&& ((1#32 <<< o) - 1#32)
  let rotField := (addr >>> o) &&& ((1#32 <<< n) - 1#32)
  let upper := addr >>> shiftSum P cfg n
  lower ||| (upper <<< o) ||| (rotField <<< subU32 32 n)

/-- `gen_scramble`: the address bank port `port` presents to its cache. -/
def genScramble (port : Nat) (addr : BitVec 32) : BitVec 32 :=
  addrRot P cfg (bitsToRotate P cfg port) addr

variable {P cfg}

theorem shiftSum_eq {n : Nat} (h : cfg.dynamicOffset.toNat + n < 32) :
    shiftSum P cfg n = cfg.dynamicOffset.toNat + n := by
  apply Nat.mod_eq_of_lt
  have : 2 ^ 5 ≤ 2 ^ max 5 P.rotWidth := Nat.pow_le_pow_right (by omega) (Nat.le_max_left _ _)
  omega

theorem subU32_eq {a b : Nat} (ha : a < 2 ^ 32) (hb : b ≤ a) : subU32 a b = a - b := by
  rw [subU32, show a + 2 ^ 32 - b = (a - b) + 2 ^ 32 by omega, Nat.add_mod_right,
    Nat.mod_eq_of_lt (by omega)]

/-- Where the sum does not wrap the rotation is `BitField.park`. -/
theorem addrRot_eq_park_of_shiftSum {n : Nat} (hsum : shiftSum P cfg n = cfg.dynamicOffset.toNat + n)
    (hn : n ≤ 32) : addrRot P cfg n = BitField.park cfg.dynamicOffset.toNat n := by
  funext addr
  simp only [addrRot, hsum, subU32_eq (a := 32) (by omega) hn, BitField.park, BitField.lowMask]

theorem addrRot_eq_park {n : Nat} (h : cfg.dynamicOffset.toNat + n < 32) :
    addrRot P cfg n = BitField.park cfg.dynamicOffset.toNat n :=
  addrRot_eq_park_of_shiftSum (shiftSum_eq h) (by omega)

end Interco

end CachePool
