import Mathlib.Data.Nat.Basic

/-!
# Interrupt bits of the cores (`interrupt.c`, the cluster-local CLINT of the peripheral)

* `regWrite` — `cl_clint_q` and a write to a register of the peripheral.
* `snrtIntClusterSet`, `snrtIntClusterClr` — the two writes of the runtime, at the offsets it computes from
  `cl_clint`; `snrtIntClusterClr_eq` says where the second one goes.
-/

set_option autoImplicit false

namespace CachePool

/-- `CACHEPOOL_PERIPHERAL_CL_CLINT_SET_REG_OFFSET`. -/
def clClintSetRegOffset : Nat := 0x8

/-- `CACHEPOOL_PERIPHERAL_CL_CLINT_CLEAR_REG_OFFSET`. -/
def clClintClearRegOffset : Nat := 0xc

/-- `cl_clint_q` after a write of `x` to the register at `offset`. -/
def regWrite (clint : BitVec 32) (offset : Nat) (x : BitVec 32) : BitVec 32 :=
  if offset = clClintSetRegOffset then clint ||| x
  else if offset = clClintClearRegOffset then clint &&& ~~~x
  else clint

/-- `clint_p + k`, as an offset in the peripheral: `cl_clint` points at the set register, to words. -/
def clintP (k : Nat) : Nat := clClintSetRegOffset + 4 * k

/-- `snrt_int_cluster_set`. -/
def snrtIntClusterSet (clint mask : BitVec 32) : BitVec 32 := regWrite clint (clintP 0) mask

/-- `snrt_int_cluster_clr`. -/
def snrtIntClusterClr (clint mask : BitVec 32) : BitVec 32 := regWrite clint (clintP 2) mask

/-- The runtime's clear goes to a register that leaves the bits alone. -/
theorem snrtIntClusterClr_eq (clint mask : BitVec 32) : snrtIntClusterClr clint mask = clint := rfl

/-- Setting one's own bit. -/
theorem getLsbD_snrtIntClusterSet (clint : BitVec 32) {k : Nat} (hk : k < 32) :
    (snrtIntClusterSet clint (1#32 <<< k)).getLsbD k = true := by
  have hset : snrtIntClusterSet clint (1#32 <<< k) = clint ||| 1#32 <<< k := rfl
  rw [hset]
  simp [hk]

end CachePool
