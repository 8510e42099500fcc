import CachePool.Pkg
import CachePool.Lib.Exchange

/-!
# DRAM channels (`cachepool_pkg`, `cachepool_cluster`, `tb_cachepool`)

The cluster scrambles the address of every refill and picks the memory channel from the scrambled
address; the testbench reverts the scrambling and cuts the channel field out of the address.  The ELF
preloader does the last step alone, on the address less the DRAM base.

* `revertAddr_scrambleAddr` — the testbench sees the address the cache asked for.
* `tileSel_scrambleAddr` — the channel picked by the cluster is the channel field of the address.
* `ctrlAddr_sub_base` — at run time and at preload a byte has one controller address, up to the base.
* `interleaving_agreement` — the agreement of the three, and injectivity.
-/

set_option autoImplicit false

namespace CachePool

/-- The memory parameters of `cachepool_pkg`.  `DramAddr` and `DramBase` are one number there. -/
structure DramCfg where
  spatzAxiAddrWidth : Nat
  numL2Channel : Nat
  dramPerChSize : Nat
  l2BankBeWidth : Nat
  interleave : Nat
  dramBase : Nat
  deriving DecidableEq, Repr

namespace DramCfg

variable (D : DramCfg)

/-- `axi_addr_t`. -/
abbrev AxiAddr := BitVec D.spatzAxiAddrWidth

/-- `dram_ctrl_interleave_t`. -/
structure DramCtrlInterleave where
  dramCtrlId : BitVec 32
  dramCtrlAddr : D.AxiAddr

def constantBits : Nat := clog2 (D.l2BankBeWidth * D.interleave)

def scrambleBits : Nat := clog2 D.numL2Channel

def sizeOffsetBits : Nat := clog2 D.dramPerChSize

def interChangeBits : Nat := D.sizeOffsetBits - D.constantBits

/-- `getDramCTRLInfo`. -/
def getDramCTRLInfo (addr : D.AxiAddr) : D.DramCtrlInterleave :=
  let reminderBits := D.spatzAxiAddrWidth - D.scrambleBits - D.constantBits
  { dramCtrlId := (addr.extractLsb' D.constantBits D.scrambleBits).setWidth 32
    dramCtrlAddr :=
      (addr.extractLsb' (D.spatzAxiAddrWidth - reminderBits) reminderBits ++ 0#D.scrambleBits ++
        addr.extractLsb' 0 D.constantBits).setWidth D.spatzAxiAddrWidth }

/-- `scrambleAddr`. -/
def scrambleAddr (addr : D.AxiAddr) : D.AxiAddr :=
  if D.l2BankBeWidth * D.interleave < D.dramPerChSize then
    let reminderBits := D.spatzAxiAddrWidth - D.scrambleBits - D.sizeOffsetBits
    (addr.extractLsb' (D.spatzAxiAddrWidth - reminderBits) reminderBits ++
      addr.extractLsb' D.constantBits D.scrambleBits ++
      addr.extractLsb' (D.constantBits + D.scrambleBits) D.interChangeBits ++
      addr.extractLsb' 0 D.constantBits).setWidth D.spatzAxiAddrWidth
  else addr

/-- `revertAddr`. -/
def revertAddr (addr : D.AxiAddr) : D.AxiAddr :=
  if D.l2BankBeWidth * D.interleave < D.dramPerChSize then
    let reminderBits := D.spatzAxiAddrWidth - D.scrambleBits - D.sizeOffsetBits
    (addr.extractLsb' (D.spatzAxiAddrWidth - reminderBits) reminderBits ++
      addr.extractLsb' D.constantBits D.interChangeBits ++
      addr.extractLsb' D.sizeOffsetBits D.scrambleBits ++
      addr.extractLsb' 0 D.constantBits).setWidth D.spatzAxiAddrWidth
  else addr

/-! ## The channel decoder of the cluster -/

/-- `reqrsp_rule_t`. -/
structure ReqrspRule (w : Nat) where
  idx : Nat
  base : BitVec w
  mask : BitVec w

namespace ReqrspRule

variable {w : Nat}

def Matches (r : ReqrspRule w) (addr : BitVec w) : Prop := r.base &&& r.mask = addr &&& r.mask

instance (r : ReqrspRule w) (addr : BitVec w) : Decidable (r.Matches addr) := by
  unfold Matches
  exact inferInstance

end ReqrspRule

/-- `addr_decode_napot`, a library module: the index of the matching rule, or the default index. -/
structure AddrDecodeNapot (w : Nat) where
  idxO : List (ReqrspRule w) → Nat → BitVec w → Nat
  idxO_of_matches : ∀ rules dflt addr r, r ∈ rules → r.Matches addr →
    (∀ r' ∈ rules, r'.Matches addr → r'.idx = r.idx) → idxO rules dflt addr = r.idx
  idxO_of_error : ∀ rules dflt addr, (∀ r ∈ rules, ¬ r.Matches addr) → idxO rules dflt addr = dflt

/-- `xbar_rule[i]`; the base is computed in 32 bits. -/
def xbarRule (i : Nat) : ReqrspRule D.spatzAxiAddrWidth where
  idx := i
  base := BitVec.ofNat _ ((D.dramBase + D.dramPerChSize * i) % 2 ^ 32)
  mask := BitVec.allOnes _ <<< clog2 D.dramPerChSize

/-- `tile_sel_err`: the rule's index, `NumL2Channel` when the address is not mapped. -/
def tileSelErr (N : AddrDecodeNapot D.spatzAxiAddrWidth) (addr : D.AxiAddr) : Nat :=
  N.idxO ((List.range D.numL2Channel).map D.xbarRule) D.numL2Channel addr

/-- `tile_sel`, the low bits of `tile_sel_err`. -/
def tileSel (N : AddrDecodeNapot D.spatzAxiAddrWidth) (addr : D.AxiAddr) : Nat :=
  D.tileSelErr N addr % 2 ^ clog2 D.numL2Channel

/-! ## The testbench -/

/-- The address an AXI request of the cluster has at its DRAM simulator (`gen_dram_scrambler`). -/
def axiDramReqAddr (addr : D.AxiAddr) : D.AxiAddr :=
  (D.getDramCTRLInfo (D.revertAddr addr)).dramCtrlAddr

/-- `dram_ctrl_info` of a preloaded byte (`l2_init`). -/
def preloadInfo (addr : D.AxiAddr) : D.DramCtrlInterleave :=
  D.getDramCTRLInfo (addr - BitVec.ofNat _ D.dramBase)

/-! ## Well-formed parameters -/

/-- Powers of two, at least two channels, an interleaving granularity below the channel size, and a
DRAM region aligned to its size that fits the address width and the 32-bit constants. -/
structure Wf : Prop where
  channels : ∃ s, 1 ≤ s ∧ D.numL2Channel = 2 ^ s
  size : ∃ k, D.dramPerChSize = 2 ^ k
  granularity : ∃ c, D.l2BankBeWidth * D.interleave = 2 ^ c
  interleaves : D.l2BankBeWidth * D.interleave < D.dramPerChSize
  aligned : D.numL2Channel * D.dramPerChSize ∣ D.dramBase
  int_unsigned : D.numL2Channel * D.dramPerChSize < 2 ^ 32 ∧ D.dramBase < 2 ^ 32
  addressable : D.dramBase + D.numL2Channel * D.dramPerChSize ≤ 2 ^ D.spatzAxiAddrWidth

/-- An address of the DRAM region. -/
def IsDram (addr : D.AxiAddr) : Prop :=
  D.dramBase ≤ addr.toNat ∧ addr.toNat < D.dramBase + D.numL2Channel * D.dramPerChSize

variable {D}

/-! ## Scrambling as an exchange of fields -/

/-- The exponents of a well-formed configuration: the granularity `2 ^ c`, the channel size `2 ^ k` and
the number of channels `2 ^ s`. -/
theorem Wf.bits (h : D.Wf) :
    D.numL2Channel = 2 ^ D.scrambleBits ∧ D.dramPerChSize = 2 ^ D.sizeOffsetBits ∧
      D.constantBits < D.sizeOffsetBits ∧
      D.constantBits + D.scrambleBits + D.interChangeBits = D.sizeOffsetBits + D.scrambleBits := by
  obtain ⟨s, _, hs⟩ := h.channels
  obtain ⟨k, hk⟩ := h.size
  obtain ⟨c, hc⟩ := h.granularity
  have hcs : D.constantBits = c := by rw [constantBits, hc, clog2_two_pow]
  have hks : D.sizeOffsetBits = k := by rw [sizeOffsetBits, hk, clog2_two_pow]
  have hss : D.scrambleBits = s := by rw [scrambleBits, hs, clog2_two_pow]
  have hlt : c < k := by
    have := h.interleaves
    rw [hc, hk] at this
    exact (Nat.pow_lt_pow_iff_right (by omega)).mp this
  refine ⟨by rw [hss, hs], by rw [hks, hk], by omega, ?_⟩
  rw [interChangeBits]
  omega

/-- The size of the DRAM region. -/
theorem Wf.total (h : D.Wf) :
    D.numL2Channel * D.dramPerChSize = 2 ^ (D.sizeOffsetBits + D.scrambleBits) := by
  rw [h.bits.1, h.bits.2.1, Nat.pow_add, Nat.mul_comm]

theorem Wf.fits (h : D.Wf) : D.sizeOffsetBits + D.scrambleBits ≤ D.spatzAxiAddrWidth := by
  have hle := h.addressable
  rw [h.total] at hle
  apply (Nat.pow_le_pow_iff_right (a := 2) (by omega)).mp
  omega

theorem scrambleAddr_eq (h : D.Wf) (addr : D.AxiAddr) :
    D.scrambleAddr addr =
      BitField.exchange D.constantBits D.scrambleBits D.interChangeBits addr := by
  have hb := h.bits.2.2.2
  have hf := h.fits
  rw [scrambleAddr, if_pos h.interleaves]
  exact BitField.exchange_eq (by omega) (by omega) rfl addr

theorem revertAddr_eq (h : D.Wf) (addr : D.AxiAddr) :
    D.revertAddr addr = BitField.exchange D.constantBits D.interChangeBits D.scrambleBits addr := by
  have hb := h.bits.2.2.2
  have hf := h.fits
  rw [revertAddr, if_pos h.interleaves]
  exact BitField.exchange_eq (by omega) (by omega) (by omega) addr

/-- **The testbench sees the address the cache asked for.** -/
theorem revertAddr_scrambleAddr (h : D.Wf) (addr : D.AxiAddr) :
    D.revertAddr (D.scrambleAddr addr) = addr := by
  have hb := h.bits.2.2.2
  have hf := h.fits
  rw [revertAddr_eq h, scrambleAddr_eq h]
  apply BitField.exchange_exchange
  omega

/-! ## The channel -/

/-- The channel field of an address. -/
def channel (D : DramCfg) (addr : D.AxiAddr) : Nat :=
  addr.toNat / 2 ^ D.constantBits % 2 ^ D.scrambleBits

theorem Wf.scrambleBits_lt (h : D.Wf) : D.scrambleBits < 32 := by
  have hlt := h.int_unsigned.1
  rw [h.total] at hlt
  have := (Nat.pow_lt_pow_iff_right (a := 2) (by omega)).mp hlt
  omega

theorem dramCtrlId_toNat (h : D.Wf) (addr : D.AxiAddr) :
    (D.getDramCTRLInfo addr).dramCtrlId.toNat = D.channel addr := by
  have hlt : D.channel addr < 2 ^ 32 := by
    have h1 : D.channel addr < 2 ^ D.scrambleBits := Nat.mod_lt _ (Nat.two_pow_pos _)
    have h2 := Nat.pow_lt_pow_right (a := 2) (by omega) h.scrambleBits_lt
    omega
  simp only [getDramCTRLInfo, BitVec.toNat_setWidth, BitField.slice_toNat]
  exact Nat.mod_eq_of_lt hlt

/-- The base is a multiple of the region's size. -/
theorem Wf.base_eq (h : D.Wf) :
    ∃ b, D.dramBase = b * 2 ^ (D.sizeOffsetBits + D.scrambleBits) := by
  obtain ⟨b, hb⟩ := h.aligned
  exact ⟨b, by rw [hb, h.total, Nat.mul_comm]⟩

/-- Above the offset in the region a DRAM address is the base. -/
theorem IsDram.div_eq (h : D.Wf) {addr : D.AxiAddr} (ha : D.IsDram addr) {b : Nat}
    (hb : D.dramBase = b * 2 ^ (D.sizeOffsetBits + D.scrambleBits)) :
    addr.toNat / 2 ^ (D.sizeOffsetBits + D.scrambleBits) = b := by
  obtain ⟨hlo, hhi⟩ := ha
  rw [h.total, hb] at hhi
  rw [hb] at hlo
  apply Nat.div_eq_of_lt_le hlo
  rw [Nat.succ_mul]
  exact hhi

/-- The region ends within 32 bits. -/
theorem Wf.base_add_le (h : D.Wf) : D.dramBase + D.numL2Channel * D.dramPerChSize ≤ 2 ^ 32 := by
  obtain ⟨b, hb⟩ := h.base_eq
  obtain ⟨htot, hbase⟩ := h.int_unsigned
  rw [h.total] at htot
  rw [h.total, hb]
  rw [hb] at hbase
  have ht : D.sizeOffsetBits + D.scrambleBits ≤ 32 :=
    Nat.le_of_lt ((Nat.pow_lt_pow_iff_right (a := 2) (by omega)).mp htot)
  have hpow : 2 ^ 32 =
      2 ^ (32 - (D.sizeOffsetBits + D.scrambleBits)) * 2 ^ (D.sizeOffsetBits + D.scrambleBits) := by
    rw [← Nat.pow_add, Nat.sub_add_cancel ht]
  rw [hpow] at hbase ⊢
  have hlt := Nat.lt_of_mul_lt_mul_right hbase
  rw [← Nat.succ_mul]
  exact Nat.mul_le_mul_right _ hlt

theorem xbarRule_base (h : D.Wf) {i : Nat} (hi : i < D.numL2Channel) :
    (D.xbarRule i).base.toNat = D.dramBase + D.dramPerChSize * i := by
  have hsz : 0 < D.dramPerChSize := by
    rw [h.bits.2.1]
    exact Nat.two_pow_pos _
  have hlt : D.dramPerChSize * i < D.numL2Channel * D.dramPerChSize := by
    rw [Nat.mul_comm D.numL2Channel]
    exact Nat.mul_lt_mul_of_pos_left hi hsz
  have h32 := h.base_add_le
  have hw := h.addressable
  simp only [xbarRule, BitVec.toNat_ofNat]
  rw [Nat.mod_eq_of_lt (a := D.dramBase + D.dramPerChSize * i) (by omega),
    Nat.mod_eq_of_lt (by omega)]

/-- The scrambled address lies in the block of its channel. -/
theorem scrambleAddr_div (h : D.Wf) (addr : D.AxiAddr) :
    (D.scrambleAddr addr).toNat / 2 ^ D.sizeOffsetBits =
      addr.toNat / 2 ^ (D.sizeOffsetBits + D.scrambleBits) * 2 ^ D.scrambleBits + D.channel addr := by
  have hb := h.bits.2.2.2
  have hf := h.fits
  have hdiv := BitField.exchange_div (o := D.constantBits) (m := D.scrambleBits)
    (n := D.interChangeBits) (by omega) addr
  rw [show D.constantBits + D.interChangeBits = D.sizeOffsetBits by omega, hb] at hdiv
  rw [scrambleAddr_eq h, hdiv, channel]

/-- A scrambled DRAM address matches exactly the rule of its channel. -/
theorem xbarRule_matches_iff (h : D.Wf) {addr : D.AxiAddr} (ha : D.IsDram addr) {i : Nat}
    (hi : i < D.numL2Channel) :
    (D.xbarRule i).Matches (D.scrambleAddr addr) ↔ i = D.channel addr := by
  obtain ⟨b, hb⟩ := h.base_eq
  have hbase : (D.xbarRule i).base.toNat / 2 ^ D.sizeOffsetBits = b * 2 ^ D.scrambleBits + i := by
    rw [xbarRule_base h hi, hb, h.bits.2.1, Nat.pow_add, Nat.add_comm, Nat.mul_comm _ i,
      Nat.mul_comm (2 ^ D.sizeOffsetBits), ← Nat.mul_assoc, ← Nat.add_mul,
      Nat.mul_div_cancel _ (Nat.two_pow_pos _), Nat.add_comm]
  have hmask : (D.xbarRule i).mask = BitVec.allOnes _ <<< D.sizeOffsetBits := rfl
  unfold ReqrspRule.Matches
  rw [hmask, BitField.and_highMask_eq_iff, hbase, scrambleAddr_div h, ha.div_eq h hb]
  omega

theorem channel_lt (h : D.Wf) (addr : D.AxiAddr) : D.channel addr < D.numL2Channel := by
  rw [h.bits.1]
  exact Nat.mod_lt _ (Nat.two_pow_pos _)

/-- **The channel picked by the cluster is the channel field of the address.** -/
theorem tileSel_scrambleAddr (h : D.Wf) (N : AddrDecodeNapot D.spatzAxiAddrWidth) {addr : D.AxiAddr}
    (ha : D.IsDram addr) : D.tileSel N (D.scrambleAddr addr) = D.channel addr := by
  have hlt := channel_lt h addr
  have herr : D.tileSelErr N (D.scrambleAddr addr) = D.channel addr := by
    apply N.idxO_of_matches _ _ _ (D.xbarRule (D.channel addr))
    · exact List.mem_map_of_mem (List.mem_range.mpr hlt)
    · exact (xbarRule_matches_iff h ha hlt).mpr rfl
    · intro r hr hm
      obtain ⟨i, hi, rfl⟩ := List.mem_map.mp hr
      rw [(xbarRule_matches_iff h ha (List.mem_range.mp hi)).mp hm]
  rw [tileSel, herr]
  apply Nat.mod_eq_of_lt
  exact Nat.lt_of_lt_of_le hlt (le_two_pow_clog2 _)

/-! ## The controller address -/

theorem dramCtrlAddr_toNat (h : D.Wf) (addr : D.AxiAddr) :
    (D.getDramCTRLInfo addr).dramCtrlAddr.toNat =
      addr.toNat / 2 ^ (D.constantBits + D.scrambleBits) * 2 ^ (D.constantBits + D.scrambleBits) +
        addr.toNat % 2 ^ D.constantBits := by
  have hb := h.bits
  have hf := h.fits
  have hstart : D.spatzAxiAddrWidth - (D.spatzAxiAddrWidth - D.scrambleBits - D.constantBits) =
      D.constantBits + D.scrambleBits := by omega
  have hrest : addr.toNat / 2 ^ (D.constantBits + D.scrambleBits) <
      2 ^ (D.spatzAxiAddrWidth - D.scrambleBits - D.constantBits) := by
    apply Nat.div_lt_of_lt_mul
    rw [← Nat.pow_add, show D.constantBits + D.scrambleBits +
      (D.spatzAxiAddrWidth - D.scrambleBits - D.constantBits) = D.spatzAxiAddrWidth by omega]
    exact addr.isLt
  simp only [getDramCTRLInfo, BitVec.toNat_setWidth]
  rw [Nat.mod_eq_of_lt]
  · rw [BitField.append_toNat, BitField.append_toNat, BitField.slice_toNat, BitField.slice_toNat,
      hstart, Nat.mod_eq_of_lt hrest, BitVec.toNat_ofNat, Nat.zero_mod, Nat.add_zero, pow_zero,
      Nat.div_one, Nat.mul_assoc, ← Nat.pow_add, Nat.add_comm D.scrambleBits]
  · refine Nat.lt_of_lt_of_le (BitVec.isLt _) (Nat.pow_le_pow_right (by omega) ?_)
    omega

/-- The address of a byte less the base. -/
theorem sub_base_toNat {addr : D.AxiAddr} (ha : D.IsDram addr) :
    (addr - BitVec.ofNat _ D.dramBase).toNat = addr.toNat - D.dramBase := by
  have hlt : D.dramBase < 2 ^ D.spatzAxiAddrWidth := Nat.lt_of_le_of_lt ha.1 addr.isLt
  have hbase : (BitVec.ofNat D.spatzAxiAddrWidth D.dramBase).toNat = D.dramBase := by
    rw [BitVec.toNat_ofNat, Nat.mod_eq_of_lt hlt]
  rw [BitVec.toNat_sub_of_le (BitVec.le_def.mpr (by rw [hbase]; exact ha.1)), hbase]

/-- The base is a multiple of what one controller word group of all channels covers. -/
theorem Wf.exists_offset (h : D.Wf) {addr : D.AxiAddr} (ha : D.IsDram addr) :
    ∃ B, D.dramBase = B * 2 ^ (D.constantBits + D.scrambleBits) ∧
      addr.toNat = (addr.toNat - D.dramBase) + B * 2 ^ (D.constantBits + D.scrambleBits) := by
  obtain ⟨b, hb⟩ := h.base_eq
  have hbits := h.bits
  have hpow : 2 ^ (D.sizeOffsetBits + D.scrambleBits) =
      2 ^ (D.sizeOffsetBits - D.constantBits) * 2 ^ (D.constantBits + D.scrambleBits) := by
    rw [← Nat.pow_add]
    congr 1
    omega
  have hle := ha.1
  refine ⟨b * 2 ^ (D.sizeOffsetBits - D.constantBits), ?_, ?_⟩
  · rw [hb, hpow, Nat.mul_assoc]
  · rw [Nat.mul_assoc, ← hpow, ← hb]
    omega

/-- The channel field does not see the base. -/
theorem channel_sub_base (h : D.Wf) {addr : D.AxiAddr} (ha : D.IsDram addr) :
    D.channel (addr - BitVec.ofNat _ D.dramBase) = D.channel addr := by
  obtain ⟨B, _, haddr⟩ := h.exists_offset ha
  have hfield : B * 2 ^ (D.constantBits + D.scrambleBits) =
      (B * 2 ^ D.scrambleBits) * 2 ^ D.constantBits := by
    rw [Nat.pow_add, Nat.mul_comm (2 ^ D.constantBits), Nat.mul_assoc]
  unfold channel
  rw [sub_base_toNat ha]
  conv_rhs => rw [haddr, hfield, Nat.add_mul_div_right _ _ (Nat.two_pow_pos _),
    Nat.add_mul_mod_self_right]

/-- **A byte has one controller address, up to the base.** -/
theorem ctrlAddr_sub_base (h : D.Wf) {addr : D.AxiAddr} (ha : D.IsDram addr) :
    (D.getDramCTRLInfo addr).dramCtrlAddr - BitVec.ofNat _ D.dramBase =
      (D.preloadInfo addr).dramCtrlAddr := by
  obtain ⟨B, hB, haddr⟩ := h.exists_offset ha
  have hdvd : 2 ^ D.constantBits ∣ B * 2 ^ (D.constantBits + D.scrambleBits) :=
    Dvd.dvd.mul_left (Nat.pow_dvd_pow 2 (by omega)) B
  have hctrl : (D.getDramCTRLInfo addr).dramCtrlAddr.toNat =
      (D.preloadInfo addr).dramCtrlAddr.toNat + D.dramBase := by
    rw [preloadInfo, dramCtrlAddr_toNat h, dramCtrlAddr_toNat h, sub_base_toNat ha]
    conv_lhs => rw [haddr, Nat.add_mul_div_right _ _ (Nat.two_pow_pos _),
      Nat.add_mod, Nat.mod_eq_zero_of_dvd hdvd, Nat.add_zero, Nat.mod_mod, Nat.add_mul, ← hB]
    omega
  have hlt : D.dramBase < 2 ^ D.spatzAxiAddrWidth := Nat.lt_of_le_of_lt ha.1 addr.isLt
  have hbase : (BitVec.ofNat D.spatzAxiAddrWidth D.dramBase).toNat = D.dramBase := by
    rw [BitVec.toNat_ofNat, Nat.mod_eq_of_lt hlt]
  apply BitVec.eq_of_toNat_eq
  rw [BitVec.toNat_sub_of_le (BitVec.le_def.mpr (by rw [hbase, hctrl]; omega)), hbase, hctrl]
  omega

/-- Channel and controller address name one address. -/
theorem eq_of_channel_of_ctrlAddr (h : D.Wf) {a b : D.AxiAddr} (hch : D.channel a = D.channel b)
    (hctrl : (D.getDramCTRLInfo a).dramCtrlAddr = (D.getDramCTRLInfo b).dramCtrlAddr) : a = b := by
  have hlow : ∀ x : D.AxiAddr,
      x.toNat % 2 ^ D.constantBits < 2 ^ (D.constantBits + D.scrambleBits) := fun x =>
    Nat.lt_of_lt_of_le (Nat.mod_lt _ (Nat.two_pow_pos _)) (Nat.pow_le_pow_right (by omega) (by omega))
  have heq := congrArg BitVec.toNat hctrl
  rw [dramCtrlAddr_toNat h, dramCtrlAddr_toNat h] at heq
  have hhigh : a.toNat / 2 ^ (D.constantBits + D.scrambleBits) =
      b.toNat / 2 ^ (D.constantBits + D.scrambleBits) := by
    have := congrArg (· / 2 ^ (D.constantBits + D.scrambleBits)) heq
    simpa only [BitField.mul_add_div_two_pow (hlow _)] using this
  have hmid : a.toNat / 2 ^ D.constantBits = b.toNat / 2 ^ D.constantBits := by
    unfold channel at hch
    rw [Nat.pow_add, ← Nat.div_div_eq_div_mul, ← Nat.div_div_eq_div_mul] at hhigh
    rw [← Nat.div_add_mod (a.toNat / 2 ^ D.constantBits) (2 ^ D.scrambleBits),
      ← Nat.div_add_mod (b.toNat / 2 ^ D.constantBits) (2 ^ D.scrambleBits), hhigh, hch]
  rw [hhigh] at heq
  apply BitVec.eq_of_toNat_eq
  rw [← Nat.div_add_mod a.toNat (2 ^ D.constantBits), ← Nat.div_add_mod b.toNat (2 ^ D.constantBits),
    hmid, Nat.add_left_cancel heq]

/-- **DRAM interleaving agreement.**  The testbench undoes the scrambling; the cluster's channel of a
DRAM address is the one `getDramCTRLInfo` names, for the address and for the preloaded byte; the
controller address at run time, less the base, is the preloader's; no two addresses share a channel
and a controller address. -/
theorem interleaving_agreement (D : DramCfg) (h : D.Wf) (N : AddrDecodeNapot D.spatzAxiAddrWidth) :
    (∀ addr, D.revertAddr (D.scrambleAddr addr) = addr) ∧
    (∀ addr, D.IsDram addr →
      D.tileSel N (D.scrambleAddr addr) = (D.getDramCTRLInfo addr).dramCtrlId.toNat ∧
      (D.preloadInfo addr).dramCtrlId = (D.getDramCTRLInfo addr).dramCtrlId ∧
      D.axiDramReqAddr (D.scrambleAddr addr) - BitVec.ofNat _ D.dramBase =
        (D.preloadInfo addr).dramCtrlAddr) ∧
    (∀ a b, D.IsDram a → D.IsDram b →
      D.tileSel N (D.scrambleAddr a) = D.tileSel N (D.scrambleAddr b) →
      D.axiDramReqAddr (D.scrambleAddr a) = D.axiDramReqAddr (D.scrambleAddr b) → a = b) := by
  refine ⟨revertAddr_scrambleAddr h, ?_, ?_⟩
  · intro addr ha
    refine ⟨?_, ?_, ?_⟩
    · rw [tileSel_scrambleAddr h N ha, dramCtrlId_toNat h]
    · apply BitVec.eq_of_toNat_eq
      rw [preloadInfo, dramCtrlId_toNat h, dramCtrlId_toNat h, channel_sub_base h ha]
    · rw [axiDramReqAddr, revertAddr_scrambleAddr h, ctrlAddr_sub_base h ha]
  · intro a b ha hb hsel hctrl
    rw [tileSel_scrambleAddr h N ha, tileSel_scrambleAddr h N hb] at hsel
    rw [axiDramReqAddr, axiDramReqAddr, revertAddr_scrambleAddr h, revertAddr_scrambleAddr h] at hctrl
    exact eq_of_channel_of_ctrlAddr h hsel hctrl

/-- The decoder that takes the highest matching rule. -/
def lastMatch (w : Nat) : AddrDecodeNapot w where
  idxO := fun rules dflt addr =>
    match (rules.filter fun r => decide (r.Matches addr)).getLast? with
    | some r => r.idx
    | none => dflt
  idxO_of_matches := by
    intro rules dflt addr r hr hm huniq
    have hmem : r ∈ rules.filter fun r => decide (r.Matches addr) :=
      List.mem_filter.mpr ⟨hr, decide_eq_true hm⟩
    cases hl : (rules.filter fun r => decide (r.Matches addr)).getLast? with
    | none =>
      rw [List.getLast?_eq_none_iff] at hl
      rw [hl] at hmem
      cases hmem
    | some r' =>
      have hr' := List.mem_filter.mp (List.mem_of_getLast? hl)
      exact huniq r' hr'.1 (of_decide_eq_true hr'.2)
  idxO_of_error := by
    intro rules dflt addr hnone
    have hempty : rules.filter (fun r => decide (r.Matches addr)) = [] := by
      rw [List.filter_eq_nil_iff]
      intro r hr hm
      exact hnone r hr (of_decide_eq_true hm)
    simp [hempty]

/-- Four channels of 256 MiB, 64-byte banks, interleaved by 16 of them (`config.mk`). -/
def defaultCfg : DramCfg := ⟨32, 4, 2 ^ 28, 64, 16, 2 ^ 31⟩

theorem defaultCfg_wf : defaultCfg.Wf where
  channels := ⟨2, by decide, rfl⟩
  size := ⟨28, rfl⟩
  granularity := ⟨10, rfl⟩
  interleaves := by decide
  aligned := ⟨2, rfl⟩
  int_unsigned := ⟨by decide, by decide⟩
  addressable := by decide

theorem interleaving_agreement_default :
    defaultCfg.revertAddr (defaultCfg.scrambleAddr 0x80000400#32) = 0x80000400#32 ∧
    defaultCfg.tileSel (lastMatch 32) (defaultCfg.scrambleAddr 0x80000400#32) =
      (defaultCfg.getDramCTRLInfo 0x80000400#32).dramCtrlId.toNat :=
  ⟨(interleaving_agreement defaultCfg defaultCfg_wf (lastMatch 32)).1 _,
    ((interleaving_agreement defaultCfg defaultCfg_wf (lastMatch 32)).2.1 0x80000400#32
      (by unfold IsDram; decide)).1⟩

end DramCfg

end CachePool
