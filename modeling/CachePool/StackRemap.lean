import CachePool.Lib.BitField
import CachePool.Pkg

/-!
# The stack window of a core complex (`cachepool_cc`: `addr_decode`, the software stack's address)

A scalar request goes to the main memory, the part of the stack in the cache, the stack scratchpad or the
peripherals; of two windows that both hold the address the later one in the map wins.  In a request to the
stack in the cache the upper bits of the offset are replaced by the hart's index.

* `coreReqSel_eq_totStack_iff` — the addresses decoded as spilled stack.
* `remap_eq_iff` — two such requests get one address exactly if they have the same hart and agree outside the
  replaced bits.
* `stack_remap_injective` — with the replaced bits all ones, as `stack_overflow` asserts, and the window on a
  multiple of its size: one to one, and inside the window.
-/

set_option autoImplicit false

namespace CachePool

namespace StackRemap

/-- The outputs of the scalar crossbar. -/
inductive Slv where
  | MainMem
  | TotStack
  | SpmStack
  | Periph
  deriving DecidableEq, Repr

/-- `tcdm_addr_base_i` and the sizes of `cachepool_pkg`. -/
structure Cfg where
  tcdmAddrBase : BitVec 32
  tcdmSize : BitVec 32
  spmStackSize : BitVec 32
  totStackSize : Nat
  numCores : Nat
  dramAddr : BitVec 32
  dramSize : BitVec 32
  deriving DecidableEq, Repr

variable (P : Cfg)

/-- `reqrsp_rule_t` without its index. -/
structure Rule where
  base : BitVec 32
  size : BitVec 32

/-- `addr_map`. -/
def addrMap : Slv → Rule
  | .SpmStack => ⟨P.tcdmAddrBase + P.tcdmSize - P.spmStackSize, P.spmStackSize⟩
  | .TotStack => ⟨P.tcdmAddrBase, BitVec.ofNat 32 P.totStackSize⟩
  | _ => ⟨P.dramAddr, P.dramSize⟩

/-- The comparison of `addr_decode` with one rule. -/
def inRule (j : Slv) (addr : BitVec 32) : Bool :=
  decide ((addrMap P j).base ≤ addr) && decide (addr < (addrMap P j).size + (addrMap P j).base)

/-- `core_req_sel`: the loop over the three rules. -/
def coreReqSel (addr : BitVec 32) : Slv :=
  [Slv.MainMem, Slv.TotStack, Slv.SpmStack].foldl (fun sel j => if inRule P j addr then j else sel) Slv.Periph

/-- The lowest of the replaced bits: `($clog2(TotStackSize)-1) -: $clog2(NumCores)`. -/
def fieldLsb : Nat := clog2 P.totStackSize - clog2 P.numCores

/-- `stack_addr_check`. -/
def stackAddrCheck (addr : BitVec 32) : BitVec (clog2 P.numCores) :=
  (addr >>> fieldLsb P).setWidth (clog2 P.numCores)

/-- `mem_req[i].q.addr` of hart `hartId`. -/
def memReqAddr (i : Slv) (hartId addr : BitVec 32) : BitVec 32 :=
  if i = .TotStack then BitField.setField (fieldLsb P) (clog2 P.numCores) hartId addr else addr

/-- The condition of the assertion `stack_overflow`. -/
def StackOverflowOk (addr : BitVec 32) : Prop := stackAddrCheck P addr = BitVec.allOnes (clog2 P.numCores)

/-- The address lies in the total stack window. -/
def InWindow (addr : BitVec 32) : Prop :=
  P.tcdmAddrBase.toNat ≤ addr.toNat ∧ addr.toNat < P.tcdmAddrBase.toNat + P.totStackSize

/-- Power-of-two sizes for which the replaced bits lie in the offset. -/
structure Wf : Prop where
  totStackSize : P.totStackSize = 2 ^ clog2 P.totStackSize
  numCores : P.numCores = 2 ^ clog2 P.numCores
  numCores_le : P.numCores ≤ P.totStackSize
  totStackSize_lt : P.totStackSize < 2 ^ 32

variable {P} {hart hart' addr addr' : BitVec 32}

theorem Wf.field_le (h : Wf P) : fieldLsb P + clog2 P.numCores = clog2 P.totStackSize := by
  have hle : clog2 P.numCores ≤ clog2 P.totStackSize := Nat.clog_mono_right 2 h.numCores_le
  unfold fieldLsb
  omega

theorem Wf.clog2_lt (h : Wf P) : clog2 P.totStackSize < 32 := by
  have hlt := h.totStackSize_lt
  rw [h.totStackSize] at hlt
  exact (Nat.pow_lt_pow_iff_right (by omega)).mp hlt

/-- **The spilled stack**: in the total window and not in the scratchpad's. -/
theorem coreReqSel_eq_totStack_iff :
    coreReqSel P addr = .TotStack ↔ inRule P .TotStack addr = true ∧ inRule P .SpmStack addr = false := by
  simp only [coreReqSel, List.foldl_cons, List.foldl_nil]
  cases hspm : inRule P .SpmStack addr <;> cases htot : inRule P .TotStack addr <;>
    cases hmain : inRule P .MainMem addr <;> simp

theorem Wf.inWindow_of_decoded (h : Wf P) (hsel : coreReqSel P addr = .TotStack) : InWindow P addr := by
  obtain ⟨hrule, -⟩ := coreReqSel_eq_totStack_iff.mp hsel
  unfold inRule addrMap at hrule
  simp only [Bool.and_eq_true, decide_eq_true_eq, BitVec.le_def, BitVec.lt_def, BitVec.toNat_add,
    BitVec.toNat_ofNat, Nat.mod_eq_of_lt h.totStackSize_lt] at hrule
  have hlt := Nat.mod_le (P.totStackSize + P.tcdmAddrBase.toNat) (2 ^ 32)
  exact ⟨hrule.1, by omega⟩

/-! ## Which requests get one address -/

theorem getLsbD_eq_of_lt {n : Nat} {v v' : BitVec 32} (hv : v.toNat < 2 ^ n) (hv' : v'.toNat < 2 ^ n)
    (h : ∀ i < n, v.getLsbD i = v'.getLsbD i) : v = v' := by
  apply BitVec.eq_of_getLsbD_eq
  intro i _
  by_cases hi : i < n
  · exact h i hi
  · have hpow : 2 ^ n ≤ 2 ^ i := Nat.pow_le_pow_right (by omega) (by omega)
    rw [BitVec.getLsbD, BitVec.getLsbD, Nat.testBit_lt_two_pow (by omega), Nat.testBit_lt_two_pow (by omega)]

/-- **Two requests to the spilled stack** get one address exactly if they are of one hart and the two
addresses agree outside the replaced bits. -/
theorem remap_eq_iff (h : Wf P) (hhart : hart.toNat < P.numCores) (hhart' : hart'.toNat < P.numCores) :
    memReqAddr P .TotStack hart addr = memReqAddr P .TotStack hart' addr' ↔
      hart = hart' ∧ BitField.SameOutside (fieldLsb P) (clog2 P.numCores) addr addr' := by
  have hle : fieldLsb P + clog2 P.numCores ≤ 32 := by
    have := h.field_le
    have := h.clog2_lt
    omega
  rw [h.numCores] at hhart hhart'
  unfold memReqAddr
  rw [if_pos rfl, if_pos rfl, BitField.setField_eq_iff hle]
  constructor
  · rintro ⟨hbits, hout⟩
    exact ⟨getLsbD_eq_of_lt hhart hhart' hbits, hout⟩
  · rintro ⟨rfl, hout⟩
    exact ⟨fun _ _ => rfl, hout⟩

/-- Where the assertion holds, the replaced bits are ones. -/
theorem getLsbD_of_stackOverflowOk (hok : StackOverflowOk P addr) {i : Nat} (hlo : fieldLsb P ≤ i)
    (hhi : i < fieldLsb P + clog2 P.numCores) : addr.getLsbD i = true := by
  have hbit := congrArg (fun b => b.getLsbD (i - fieldLsb P)) hok
  simp only [stackAddrCheck, BitVec.getLsbD_setWidth, BitVec.getLsbD_ushiftRight, BitVec.getLsbD_allOnes,
    show i - fieldLsb P < clog2 P.numCores by omega, decide_true, Bool.true_and,
    show fieldLsb P + (i - fieldLsb P) = i by omega] at hbit
  exact hbit

theorem eq_of_sameOutside (hok : StackOverflowOk P addr) (hok' : StackOverflowOk P addr')
    (h : BitField.SameOutside (fieldLsb P) (clog2 P.numCores) addr addr') : addr = addr' := by
  apply BitVec.eq_of_getLsbD_eq
  intro i hi
  by_cases hin : fieldLsb P ≤ i ∧ i < fieldLsb P + clog2 P.numCores
  · rw [getLsbD_of_stackOverflowOk hok hin.1 hin.2, getLsbD_of_stackOverflowOk hok' hin.1 hin.2]
  · exact h i hi hin

/-- In an aligned window the address stays in it: the bits above the offset are the base's. -/
theorem remap_inWindow (h : Wf P) (hbase : P.totStackSize ∣ P.tcdmAddrBase.toNat) (hwin : InWindow P addr) :
    InWindow P (memReqAddr P .TotStack hart addr) := by
  have hupper : (memReqAddr P .TotStack hart addr).toNat / P.totStackSize = addr.toNat / P.totStackSize := by
    have hshift := congrArg BitVec.toNat
      (BitField.setField_ushiftRight (show fieldLsb P + clog2 P.numCores ≤ clog2 P.totStackSize from
        h.field_le.le) hart addr)
    rw [BitVec.toNat_ushiftRight, BitVec.toNat_ushiftRight, Nat.shiftRight_eq_div_pow,
      Nat.shiftRight_eq_div_pow, ← h.totStackSize] at hshift
    unfold memReqAddr
    rw [if_pos rfl]
    exact hshift
  obtain ⟨q, hq⟩ := hbase
  have hpos : 0 < P.totStackSize := by
    rw [h.totStackSize]
    exact Nat.two_pow_pos _
  have hdiv : addr.toNat / P.totStackSize = q := by
    apply Nat.div_eq_of_lt_le
    · rw [Nat.mul_comm, ← hq]
      exact hwin.1
    · rw [Nat.succ_mul, Nat.mul_comm q, ← hq]
      exact hwin.2
  rw [hdiv] at hupper
  have hsplit := Nat.div_add_mod (memReqAddr P .TotStack hart addr).toNat P.totStackSize
  have hmod := Nat.mod_lt (memReqAddr P .TotStack hart addr).toNat hpos
  rw [hupper, ← hq] at hsplit
  exact ⟨by omega, by omega⟩

/-- **Injectivity.**  Two harts never get one address for their spilled stacks; one hart gets one for two
addresses exactly if they agree outside the replaced bits, so never where the assertion holds.  With the
window on a multiple of its size every such address is in the window. -/
theorem stack_remap_injective (P : Cfg) (h : Wf P) (hart hart' addr addr' : BitVec 32)
    (hhart : hart.toNat < P.numCores) (hhart' : hart'.toNat < P.numCores)
    (hsel : coreReqSel P addr = .TotStack) (hsel' : coreReqSel P addr' = .TotStack) :
    (hart ≠ hart' →
        memReqAddr P (coreReqSel P addr) hart addr ≠ memReqAddr P (coreReqSel P addr') hart' addr') ∧
      (StackOverflowOk P addr → StackOverflowOk P addr' →
        memReqAddr P (coreReqSel P addr) hart addr = memReqAddr P (coreReqSel P addr') hart' addr' →
          hart = hart' ∧ addr = addr') ∧
      (P.totStackSize ∣ P.tcdmAddrBase.toNat →
        InWindow P (memReqAddr P (coreReqSel P addr) hart addr)) := by
  rw [hsel, hsel']
  refine ⟨fun hne heq => ?_, fun hok hok' heq => ?_, fun hbase => ?_⟩
  · exact hne ((remap_eq_iff h hhart hhart').mp heq).1
  · obtain ⟨hharts, hout⟩ := (remap_eq_iff h hhart hhart').mp heq
    exact ⟨hharts, eq_of_sameOutside hok hok' hout⟩
  · exact remap_inWindow h hbase (h.inWindow_of_decoded hsel)

/-- Four cores with the scratchpad at `0xBFFFE400`, and a window of 8 KiB on a multiple of 8 KiB. -/
def alignedCfg : Cfg := ⟨0xBFFFE000#32, 0x800#32, 1024#32, 8192, 4, 0x80000000#32, 0x40000000#32⟩

theorem alignedCfg_wf : Wf alignedCfg := ⟨by decide, by decide, by decide, by decide⟩

/-- Two harts at the top of their spilled stacks, and two words of one hart that the assertion lets pass. -/
theorem stack_remap_injective_aligned :
    memReqAddr alignedCfg (coreReqSel alignedCfg 0xBFFFFFFC#32) 0#32 0xBFFFFFFC#32 ≠
        memReqAddr alignedCfg (coreReqSel alignedCfg 0xBFFFF800#32) 3#32 0xBFFFF800#32 ∧
      InWindow alignedCfg (memReqAddr alignedCfg (coreReqSel alignedCfg 0xBFFFFFFC#32) 0#32
        0xBFFFFFFC#32) ∧
      memReqAddr alignedCfg (coreReqSel alignedCfg 0xBFFFFFFC#32) 2#32 0xBFFFFFFC#32 ≠
        memReqAddr alignedCfg (coreReqSel alignedCfg 0xBFFFFFF8#32) 2#32 0xBFFFFFF8#32 := by
  obtain ⟨hne, -, hin⟩ := stack_remap_injective alignedCfg alignedCfg_wf 0#32 3#32 0xBFFFFFFC#32 0xBFFFF800#32
    (by decide) (by decide) (by decide) (by decide)
  obtain ⟨-, hsame, -⟩ := stack_remap_injective alignedCfg alignedCfg_wf 2#32 2#32 0xBFFFFFFC#32 0xBFFFFFF8#32
    (by decide) (by decide) (by decide) (by decide)
  refine ⟨hne (by decide), hin (by decide), fun heq => ?_⟩
  have haddr := (hsame (by unfold StackOverflowOk; decide) (by unfold StackOverflowOk; decide) heq).2
  exact absurd haddr (by decide)

/-- The shipped sizes with four cores, and with a total stack of 8 KiB on the same base. -/
def shippedCfg (totStackSize : Nat) : Cfg :=
  ⟨0xBFFFF800#32, 0x800#32, 1024#32, totStackSize, 4, 0x80000000#32, 0x40000000#32⟩

/-- Two spilled words of hart 0 get one address with the shipped sizes; with 8 KiB the base is not a multiple
of the total size, and a spilled word of hart 0 that the assertion lets pass leaves the window. -/
theorem stack_remap_collides :
    (coreReqSel (shippedCfg 2048) 0xBFFFF800#32 = .TotStack ∧
      coreReqSel (shippedCfg 2048) 0xBFFFFA00#32 = .TotStack ∧
        memReqAddr (shippedCfg 2048) .TotStack 0#32 0xBFFFF800#32 =
          memReqAddr (shippedCfg 2048) .TotStack 0#32 0xBFFFFA00#32) ∧
      (coreReqSel (shippedCfg 8192) 0xBFFFF800#32 = .TotStack ∧
        StackOverflowOk (shippedCfg 8192) 0xBFFFF800#32 ∧
        ¬ InWindow (shippedCfg 8192) (memReqAddr (shippedCfg 8192) .TotStack 0#32 0xBFFFF800#32)) := by
  refine ⟨⟨by decide, by decide, by decide⟩, by decide, ?_, ?_⟩
  · unfold StackOverflowOk
    decide
  · unfold InWindow
    decide

end StackRemap

end CachePool
