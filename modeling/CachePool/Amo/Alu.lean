import CachePool.Pkg

/-!
# The arithmetic of atomic operations (`amo_alu`)

One 33-bit adder serves the addition and, with the second operand negated, the signed and unsigned
comparisons; the widening of the operands depends on the signedness.

* `adderSum_signed`, `adderSum_unsigned` — bit 32 of the difference is the comparison.
* `amoAlu_eq` — for every operation the unit accepts, the result is that of the instruction set.
* `amoAlu_isa` — the same in terms of the operands' values: sums modulo the word, bits one by one,
  maxima and minima of the signed and of the unsigned values.
-/

set_option autoImplicit false

namespace CachePool

namespace Amo

/-- `adder_sum` for given `adder_operand_a` and `adder_operand_b`. -/
def adderSum (a b : BitVec 33) : BitVec 34 := a.setWidth 34 + b.setWidth 34

/-- `amo_alu`. -/
def amoAlu (op : AmoOp) (a b : BitVec 32) : BitVec 32 :=
  match op with
  | .AMOSwap => b
  | .AMOAdd => (adderSum (a.signExtend 33) (b.signExtend 33)).setWidth 32
  | .AMOAnd => a &&& b
  | .AMOOr => a ||| b
  | .AMOXor => a ^^^ b
  | .AMOMax => if (adderSum (a.signExtend 33) (-b.signExtend 33)).getLsbD 32 then b else a
  | .AMOMin => if (adderSum (a.signExtend 33) (-b.signExtend 33)).getLsbD 32 then a else b
  | .AMOMaxu => if (adderSum (a.setWidth 33) (-b.setWidth 33)).getLsbD 32 then b else a
  | .AMOMinu => if (adderSum (a.setWidth 33) (-b.setWidth 33)).getLsbD 32 then a else b
  | .AMONone | .AMOLR | .AMOSC => 0

/-- The word an atomic read-modify-write stores for the word `a` in memory and the operand `b`. -/
def amoFunction (op : AmoOp) (a b : BitVec 32) : BitVec 32 :=
  match op with
  | .AMOSwap => b
  | .AMOAdd => a + b
  | .AMOAnd => a &&& b
  | .AMOOr => a ||| b
  | .AMOXor => a ^^^ b
  | .AMOMax => if a.slt b then b else a
  | .AMOMin => if a.slt b then a else b
  | .AMOMaxu => if a.ult b then b else a
  | .AMOMinu => if a.ult b then a else b
  | .AMONone | .AMOLR | .AMOSC => a

/-- The operations the unit turns into a read and a write-back: `~(amo inside {AMONone, AMOLR,
AMOSC})`. -/
def isRmw (op : AmoOp) : Bool :=
  match op with
  | .AMONone | .AMOLR | .AMOSC => false
  | _ => true

theorem ne_none_of_isRmw {op : AmoOp} (h : isRmw op = true) : op ≠ .AMONone := by
  rintro rfl
  cases h

theorem adderSum_getLsbD (a b : BitVec 33) : (adderSum a b).getLsbD 32 = (a + b).msb := by
  have ha := a.isLt
  have hb := b.isLt
  rw [BitVec.msb_eq_decide, adderSum, BitVec.getLsbD, Nat.testBit_eq_decide_div_mod_eq]
  simp only [BitVec.toNat_add, BitVec.toNat_setWidth]
  congr 1
  rw [eq_iff_iff]
  omega

/-- The sign of the difference of the sign-extended operands. -/
theorem adderSum_signed (a b : BitVec 32) :
    (adderSum (a.signExtend 33) (-b.signExtend 33)).getLsbD 32 = a.slt b := by
  have ha := BitVec.toInt_lt (x := a)
  have ha' := BitVec.le_toInt (x := a)
  have hb := BitVec.toInt_lt (x := b)
  have hb' := BitVec.le_toInt (x := b)
  rw [adderSum_getLsbD, ← BitVec.sub_eq_add_neg, BitVec.msb_eq_toInt, BitVec.slt]
  rw [BitVec.toInt_sub, BitVec.toInt_signExtend_of_le (by omega),
    BitVec.toInt_signExtend_of_le (by omega), Int.bmod_eq_of_le (by omega) (by omega)]
  congr 1
  rw [eq_iff_iff]
  omega

/-- The borrow of the difference of the zero-extended operands. -/
theorem adderSum_unsigned (a b : BitVec 32) :
    (adderSum (a.setWidth 33) (-b.setWidth 33)).getLsbD 32 = a.ult b := by
  have ha := a.isLt
  have hb := b.isLt
  rw [adderSum_getLsbD, ← BitVec.sub_eq_add_neg, BitVec.msb_eq_decide, BitVec.ult]
  simp only [BitVec.toNat_sub, BitVec.toNat_setWidth]
  congr 1
  rw [eq_iff_iff]
  omega

theorem adderSum_add (a b : BitVec 32) :
    (adderSum (a.signExtend 33) (b.signExtend 33)).setWidth 32 = a + b := by
  apply BitVec.eq_of_toNat_eq
  rw [adderSum, BitVec.toNat_setWidth, BitVec.toNat_add, BitVec.toNat_add]
  simp only [BitVec.toNat_setWidth, BitVec.toNat_signExtend]
  have ha := a.isLt
  have hb := b.isLt
  split <;> split <;> omega

/-- **The unit computes the instruction set's result** for every operation it accepts. -/
theorem amoAlu_eq {op : AmoOp} (h : isRmw op = true) (a b : BitVec 32) :
    amoAlu op a b = amoFunction op a b := by
  cases op with
  | AMONone => cases h
  | AMOLR => cases h
  | AMOSC => cases h
  | AMOSwap => rfl
  | AMOAnd => rfl
  | AMOOr => rfl
  | AMOXor => rfl
  | AMOAdd => exact adderSum_add a b
  | AMOMax => simp only [amoAlu, amoFunction, adderSum_signed]
  | AMOMin => simp only [amoAlu, amoFunction, adderSum_signed]
  | AMOMaxu => simp only [amoAlu, amoFunction, adderSum_unsigned]
  | AMOMinu => simp only [amoAlu, amoFunction, adderSum_unsigned]

/-- `adder_operand_a` and `adder_operand_b` as the case of the operation leaves them. -/
def adderOperands (op : AmoOp) (a b : BitVec 32) : BitVec 33 × BitVec 33 :=
  match op with
  | .AMOMax | .AMOMin => (a.signExtend 33, -b.signExtend 33)
  | .AMOMaxu | .AMOMinu => (a.setWidth 33, -b.setWidth 33)
  | _ => (a.signExtend 33, b.signExtend 33)

/-- `adder_sum[32]`, the bit the comparisons are read from. -/
def adderSign (op : AmoOp) (a b : BitVec 32) : Bool :=
  (adderSum (adderOperands op a b).1 (adderOperands op a b).2).getLsbD 32

/-- What the instruction set defines: `r` is the word that `op` writes back for the word `a` in
memory and the register operand `b`, said of their values. -/
def IsaResult (op : AmoOp) (a b r : BitVec 32) : Prop :=
  match op with
  | .AMOSwap => r = b
  | .AMOAdd => r.toNat = (a.toNat + b.toNat) % 2 ^ 32
  | .AMOAnd => ∀ i, r.getLsbD i = (a.getLsbD i && b.getLsbD i)
  | .AMOOr => ∀ i, r.getLsbD i = (a.getLsbD i || b.getLsbD i)
  | .AMOXor => ∀ i, r.getLsbD i = (a.getLsbD i ^^ b.getLsbD i)
  | .AMOMax => r.toInt = max a.toInt b.toInt
  | .AMOMin => r.toInt = min a.toInt b.toInt
  | .AMOMaxu => r.toNat = max a.toNat b.toNat
  | .AMOMinu => r.toNat = min a.toNat b.toNat
  | .AMONone | .AMOLR | .AMOSC => False

/-- The comparison of the operation, in the order of its signedness. -/
def isaLess (op : AmoOp) (a b : BitVec 32) : Prop :=
  match op with
  | .AMOMax | .AMOMin => a.toInt < b.toInt
  | _ => a.toNat < b.toNat

/-- The operations that compare. -/
def isMinMax (op : AmoOp) : Bool :=
  match op with
  | .AMOMax | .AMOMin | .AMOMaxu | .AMOMinu => true
  | _ => false

theorem adderSign_iff {op : AmoOp} (h : isMinMax op = true) (a b : BitVec 32) :
    adderSign op a b = true ↔ isaLess op a b := by
  cases op with
  | AMOMax | AMOMin =>
      exact (iff_of_eq (congrArg (· = true) (adderSum_signed a b))).trans BitVec.slt_iff_toInt_lt
  | AMOMaxu | AMOMinu =>
      exact (iff_of_eq (congrArg (· = true) (adderSum_unsigned a b))).trans BitVec.ult_iff_toNat_lt
  | _ => cases h

/-- The maxima and minima take their operand by that one bit. -/
theorem amoAlu_minMax {op : AmoOp} (h : isMinMax op = true) (a b : BitVec 32) :
    amoAlu op a b =
      if adderSign op a b = true ↔ (op = .AMOMax ∨ op = .AMOMaxu) then b else a := by
  cases op with
  | AMOMax => cases hs : adderSign .AMOMax a b <;> simp_all [amoAlu, adderSign, adderOperands]
  | AMOMin => cases hs : adderSign .AMOMin a b <;> simp_all [amoAlu, adderSign, adderOperands]
  | AMOMaxu => cases hs : adderSign .AMOMaxu a b <;> simp_all [amoAlu, adderSign, adderOperands]
  | AMOMinu => cases hs : adderSign .AMOMinu a b <;> simp_all [amoAlu, adderSign, adderOperands]
  | _ => cases h

/-- **The result is the instruction set's**, and both comparisons are one bit of the one adder. -/
theorem amoAlu_isa {op : AmoOp} (h : isRmw op = true) (a b : BitVec 32) :
    IsaResult op a b (amoAlu op a b) ∧
      (isMinMax op = true → (adderSign op a b = true ↔ isaLess op a b) ∧
        amoAlu op a b =
          if adderSign op a b = true ↔ (op = .AMOMax ∨ op = .AMOMaxu) then b else a) := by
  refine ⟨?_, fun hm => ⟨adderSign_iff hm a b, amoAlu_minMax hm a b⟩⟩
  rw [amoAlu_eq h]
  have hs : (a.slt b = true) ↔ a.toInt < b.toInt := BitVec.slt_iff_toInt_lt
  have hu : (a.ult b = true) ↔ a.toNat < b.toNat := BitVec.ult_iff_toNat_lt
  cases op with
  | AMONone => cases h
  | AMOLR => cases h
  | AMOSC => cases h
  | AMOSwap => rfl
  | AMOAdd => exact BitVec.toNat_add a b
  | AMOAnd => exact fun i => BitVec.getLsbD_and
  | AMOOr => exact fun i => BitVec.getLsbD_or
  | AMOXor => exact fun i => BitVec.getLsbD_xor
  | AMOMax =>
      simp only [IsaResult, amoFunction, hs]
      split <;> omega
  | AMOMin =>
      simp only [IsaResult, amoFunction, hs]
      split <;> omega
  | AMOMaxu =>
      simp only [IsaResult, amoFunction, hu]
      split <;> omega
  | AMOMinu =>
      simp only [IsaResult, amoFunction, hu]
      split <;> omega

/-- The signed maximum at both extremes, where the 32-bit difference would overflow. -/
theorem amoAlu_isa_extremes :
    IsaResult .AMOMax 0x80000000 0x7fffffff (amoAlu .AMOMax 0x80000000 0x7fffffff) ∧
      adderSign .AMOMax 0x80000000 0x7fffffff = true :=
  ⟨(@amoAlu_isa .AMOMax rfl 0x80000000 0x7fffffff).1, by decide⟩

end Amo

end CachePool
