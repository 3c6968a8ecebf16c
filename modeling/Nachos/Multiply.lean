import Mathlib.Data.Nat.ModEq
import Mathlib.Tactic.IntervalCases
import Mathlib.Tactic.Ring
import Nachos.Mips

/-! The multiplication of the simulated processor: `Mult` of `machine/mipssim.cc` adds shifted copies of one operand,
with a carry between the two words of the product, and computes signed products from unsigned ones. -/

namespace Nachos

/-- The value of two words. -/
def double (hi lo : Word) : Nat := hi.toNat * 2 ^ 32 + lo.toNat

section Rounds

variable {a bHi bLo hi lo : Word} {n : Nat}

theorem double_lt (hi lo : Word) : double hi lo < 2 ^ 64 := by
  have hhi := hi.isLt
  have hlo := lo.isLt
  unfold double
  omega

theorem odd_iff (a : Word) : a &&& 1 ≠ 0 ↔ a.toNat % 2 = 1 := by
  have hand : (a &&& 1).toNat = a.toNat % 2 := Nat.and_two_pow_sub_one_eq_mod _ 1
  constructor
  · intro hne
    have hzero : (a &&& 1).toNat ≠ 0 := fun heq => hne (BitVec.eq_of_toNat_eq heq)
    omega
  · intro hodd heq
    rw [heq] at hand
    exact absurd hand (by rw [hodd]; decide)

/-- The test of the loop for further bits of the multiplier. -/
theorem mask_eq_zero_iff (a : Word) : a &&& 0xfffffffe = 0 ↔ a.toNat < 2 := by
  have hmask : a &&& (0xfffffffe : Word) = (a >>> 1) <<< 1 := by
    apply BitVec.eq_of_getLsbD_eq
    intro i hi
    simp only [BitVec.getLsbD_and, BitVec.getLsbD_shiftLeft, BitVec.getLsbD_ushiftRight]
    interval_cases i <;> simp
  have hlt := a.isLt
  have hval : (a &&& (0xfffffffe : Word)).toNat = a.toNat / 2 * 2 := by
    rw [hmask, BitVec.toNat_shiftLeft, BitVec.toNat_ushiftRight, Nat.shiftLeft_eq, Nat.shiftRight_eq_div_pow]
    omega
  rw [← BitVec.toNat_inj, hval]
  change a.toNat / 2 * 2 = 0 ↔ _
  omega

theorem signBit_iff (a : Word) : a &&& 0x80000000 ≠ 0 ↔ 2 ^ 31 ≤ a.toNat := by
  have hmask : a &&& (0x80000000 : Word) = (a >>> 31) <<< 31 := by
    apply BitVec.eq_of_getLsbD_eq
    intro i hi
    simp only [BitVec.getLsbD_and, BitVec.getLsbD_shiftLeft, BitVec.getLsbD_ushiftRight]
    interval_cases i <;> simp
  have hlt := a.isLt
  have hval : (a &&& (0x80000000 : Word)).toNat = a.toNat / 2 ^ 31 * 2 ^ 31 := by
    rw [hmask, BitVec.toNat_shiftLeft, BitVec.toNat_ushiftRight, Nat.shiftLeft_eq, Nat.shiftRight_eq_div_pow]
    omega
  rw [Ne, ← BitVec.toNat_inj, hval]
  change ¬a.toNat / 2 ^ 31 * 2 ^ 31 = 0 ↔ _
  omega

/-- The multiplicand is doubled. -/
theorem double_shift (bHi bLo : Word) :
    double (if bLo &&& 0x80000000 ≠ 0 then (bHi <<< 1) ||| 1 else bHi <<< 1) (bLo <<< 1) =
      2 * double bHi bLo % 2 ^ 64 := by
  have hlt := bLo.isLt
  have hlt' := bHi.isLt
  have hhi : (bHi <<< 1).toNat = 2 * bHi.toNat % 2 ^ 32 := by
    rw [BitVec.toNat_shiftLeft, Nat.shiftLeft_eq, Nat.mul_comm]
  have hlo : (bLo <<< 1).toNat = 2 * bLo.toNat % 2 ^ 32 := by
    rw [BitVec.toNat_shiftLeft, Nat.shiftLeft_eq, Nat.mul_comm]
  have hdisjoint : (bHi <<< 1) &&& 1 = 0#32 := by
    apply BitVec.eq_of_toNat_eq
    have hand : ((bHi <<< 1) &&& 1).toNat = (bHi <<< 1).toNat % 2 := Nat.and_two_pow_sub_one_eq_mod _ 1
    rw [hand, hhi]
    change _ = 0
    omega
  have hor : ((bHi <<< 1) ||| 1).toNat = 2 * bHi.toNat % 2 ^ 32 + 1 := by
    rw [← BitVec.add_eq_or_of_and_eq_zero _ _ hdisjoint, BitVec.toNat_add, hhi]
    change (2 * bHi.toNat % 2 ^ 32 + 1) % 2 ^ 32 = _
    omega
  unfold double
  rw [hlo]
  by_cases hmsb : 2 ^ 31 ≤ bLo.toNat
  · rw [if_pos ((signBit_iff bLo).mpr hmsb), hor]
    omega
  · rw [if_neg (fun h => hmsb ((signBit_iff bLo).mp h)), hhi]
    omega

/-- The multiplicand is added, with the carry. -/
theorem double_add (hi lo bHi bLo : Word) :
    double ((if lo + bLo < bLo then hi + 1 else hi) + bHi) (lo + bLo) =
      (double hi lo + double bHi bLo) % 2 ^ 64 := by
  have hlt := lo.isLt
  have hlt' := bLo.isLt
  have hsum := BitVec.toNat_add lo bLo
  have hone : (1 : Word).toNat = 1 := rfl
  unfold double
  by_cases hcarry : lo + bLo < bLo
  · have hless := BitVec.lt_def.mp hcarry
    rw [if_pos hcarry, BitVec.toNat_add, BitVec.toNat_add, hone]
    omega
  · have hless : ¬(lo + bLo).toNat < bLo.toNat := fun h => hcarry (BitVec.lt_def.mpr h)
    rw [if_neg hcarry, BitVec.toNat_add]
    omega

/-- The other bits of the multiplier, although the shift copies its sign. -/
theorem toNat_sshiftRight_mod (a : Word) (hn : n ≤ 31) : (a.sshiftRight 1).toNat % 2 ^ n = a.toNat / 2 % 2 ^ n := by
  apply Nat.eq_of_testBit_eq
  intro i
  rw [Nat.testBit_mod_two_pow, Nat.testBit_mod_two_pow, Nat.testBit_div_two]
  by_cases hi : i < n
  · have hbit := BitVec.getLsbD_sshiftRight a 1 i
    rw [decide_eq_false (show ¬32 ≤ i by omega), Bool.not_false, Bool.true_and, if_pos (show 1 + i < 32 by omega),
      Nat.add_comm] at hbit
    exact congrArg _ hbit
  · rw [decide_eq_false hi, Bool.false_and, Bool.false_and]

/-- One round: the bits that are left count double with the doubled multiplicand. -/
theorem round_mod (d b q M : Nat) : (d % M + q * (2 * b % M)) % M = (d + 2 * q * b) % M := by
  have hdouble : 2 * b % M ≡ 2 * b [MOD M] := Nat.mod_modEq _ _
  have hsum : d % M + q * (2 * b % M) ≡ d + q * (2 * b) [MOD M] := (Nat.mod_modEq _ _).add (hdouble.mul_left q)
  have hassoc : q * (2 * b) = 2 * q * b := by ring
  rw [hassoc] at hsum
  exact hsum

/-- The loop adds the product of the bits that are left. -/
theorem double_multLoop : ∀ n ≤ 32, ∀ a bHi bLo hi lo : Word,
    double (multLoop n a bHi bLo hi lo).1 (multLoop n a bHi bLo hi lo).2 =
      (double hi lo + a.toNat % 2 ^ n * double bHi bLo) % 2 ^ 64 := by
  intro n
  induction n with
  | zero =>
      intro _ a bHi bLo hi lo
      have hlt := double_lt hi lo
      change double hi lo = _
      rw [Nat.pow_zero, Nat.mod_one, Nat.zero_mul, Nat.add_zero, Nat.mod_eq_of_lt hlt]
  | succ n ih =>
      intro hn a bHi bLo hi lo
      -- the low bit is used in this round, and the others with the doubled multiplicand
      have hbits : a.toNat % 2 ^ (n + 1) = a.toNat % 2 + 2 * (a.toNat / 2 % 2 ^ n) := by
        rw [Nat.pow_succ, Nat.mul_comm, Nat.mod_mul]
      have hrest := ih (by omega) (a.sshiftRight 1)
        (if bLo &&& 0x80000000 ≠ 0 then (bHi <<< 1) ||| 1 else bHi <<< 1) (bLo <<< 1)
      rw [toNat_sshiftRight_mod a (by omega), double_shift] at hrest
      unfold multLoop
      dsimp only
      by_cases hodd : a &&& 1 ≠ 0
      · have hlow := (odd_iff a).mp hodd
        rw [if_pos hodd, if_pos hodd]
        by_cases hlast : a &&& 0xfffffffe = 0
        · have hone : a.toNat / 2 = 0 := by
            have htwo := (mask_eq_zero_iff a).mp hlast
            omega
          rw [if_pos ⟨hodd, hlast⟩, double_add, hbits, hlow, hone, Nat.zero_mod, Nat.mul_zero, Nat.add_zero,
            Nat.one_mul]
        · rw [if_neg fun h => hlast h.2, hrest, double_add, hbits, hlow, round_mod, Nat.add_mul,
            Nat.one_mul, Nat.add_assoc]
      · have hlow : a.toNat % 2 = 0 := (Nat.mod_two_eq_zero_or_one _).resolve_right fun h => hodd ((odd_iff a).mpr h)
        rw [if_neg hodd, if_neg hodd, if_neg fun h => hodd h.1, hrest, hbits, hlow, Nat.zero_add, ← round_mod,
          Nat.mod_eq_of_lt (double_lt hi lo)]

end Rounds

section Products

theorem toNat_append_word (hi lo : Word) : (hi ++ lo).toNat = double hi lo := by
  rw [BitVec.toNat_append, ← Nat.shiftLeft_add_eq_or_of_lt lo.isLt, Nat.shiftLeft_eq]
  rfl

theorem toInt_append_word (hi lo : Word) : (hi ++ lo).toInt =
    if double hi lo < 2 ^ 63 then (double hi lo : Int) else (double hi lo : Int) - 2 ^ 64 := by
  rw [BitVec.toInt_eq_toNat_cond, toNat_append_word]
  split_ifs <;> omega

/-- All rounds. -/
theorem double_multLoop_all (a b : Word) :
    double (multLoop 32 a 0 b 0 0).1 (multLoop 32 a 0 b 0 0).2 = a.toNat * b.toNat := by
  have hloop := double_multLoop 32 (le_refl 32) a 0 b 0 0
  have hzero : double 0 0 = 0 := rfl
  have hb : double 0 b = b.toNat := Nat.zero_add _
  have hlt : a.toNat * b.toNat < 2 ^ 32 * 2 ^ 32 := Nat.mul_lt_mul'' a.isLt b.isLt
  rw [← Nat.pow_add] at hlt
  rw [hzero, hb, Nat.zero_add, Nat.mod_eq_of_lt a.isLt, Nat.mod_eq_of_lt hlt] at hloop
  exact hloop

/-- The two's complement of a double word. -/
theorem double_complement (hi lo : Word) :
    double (if ~~~lo + 1 = 0 then ~~~hi + 1 else ~~~hi) (~~~lo + 1) = (2 ^ 64 - double hi lo) % 2 ^ 64 := by
  have hlt := lo.isLt
  have hlt' := hi.isLt
  have hlo : (~~~lo + 1).toNat = (2 ^ 32 - lo.toNat) % 2 ^ 32 := by
    rw [BitVec.toNat_add, BitVec.toNat_not]
    change (2 ^ 32 - 1 - lo.toNat + 1) % 2 ^ 32 = _
    congr 1
    omega
  have hhi : (~~~hi).toNat = 2 ^ 32 - 1 - hi.toNat := BitVec.toNat_not
  have hhi' : (~~~hi + 1).toNat = (2 ^ 32 - hi.toNat) % 2 ^ 32 := by
    rw [BitVec.toNat_add, BitVec.toNat_not]
    change (2 ^ 32 - 1 - hi.toNat + 1) % 2 ^ 32 = _
    congr 1
    omega
  unfold double
  rw [hlo]
  by_cases hcarry : ~~~lo + 1 = 0
  · rw [hcarry] at hlo
    change 0 = _ at hlo
    rw [if_pos hcarry, hhi']
    omega
  · have hne : (~~~lo + 1).toNat ≠ 0 := fun heq => hcarry (BitVec.eq_of_toNat_eq heq)
    rw [if_neg hcarry, hhi]
    omega

/-- An operand of the loop. -/
def operand (signedArith : Bool) (a : Word) : Word := if signedArith && a.slt 0 then -a else a

/-- The product has the sign that it should have, and is that of the operands of the loop. -/
theorem double_mult (a b : Word) (signedArith : Bool) :
    double (mult a b signedArith).1 (mult a b signedArith).2 =
      if (signedArith && a.slt 0) ^^ (signedArith && b.slt 0) then
        (2 ^ 64 - (operand signedArith a).toNat * (operand signedArith b).toNat) % 2 ^ 64
      else (operand signedArith a).toNat * (operand signedArith b).toNat := by
  have hneg : operand signedArith 0 = 0 := by cases signedArith <;> rfl
  by_cases hzero : a = 0 ∨ b = 0
  · have hproduct : (operand signedArith a).toNat * (operand signedArith b).toNat = 0 := by
      rcases hzero with rfl | rfl
      · rw [hneg]
        exact Nat.zero_mul _
      · rw [hneg]
        exact Nat.mul_zero _
    have hmult : mult a b signedArith = (0, 0) := if_pos hzero
    rw [hmult, hproduct, Nat.sub_zero, Nat.mod_self, ite_self]
    rfl
  · have hloop := double_multLoop_all (operand signedArith a) (operand signedArith b)
    unfold operand at hloop ⊢
    unfold mult
    rw [if_neg hzero]
    dsimp only
    rw [← hloop]
    generalize multLoop 32 _ 0 _ 0 0 = pair
    by_cases hsign : ((signedArith && a.slt 0) ^^ (signedArith && b.slt 0)) = true
    · rw [if_pos hsign, if_pos hsign, double_complement]
    · rw [if_neg hsign, if_neg hsign]

theorem mult_unsigned (a b : Word) : ((mult a b false).1 ++ (mult a b false).2).toNat = a.toNat * b.toNat := by
  rw [toNat_append_word, double_mult]
  rfl

/-- The operand without its sign; that of the most negative value is its own negation. -/
theorem toNat_magnitude (a : Word) : (if a.slt 0 then -a else a).toNat = a.toInt.natAbs := by
  have hlt := a.isLt
  have hint := BitVec.toInt_eq_toNat_cond a
  by_cases hneg : a.slt 0 = true
  · have hless := BitVec.slt_iff_toInt_lt.mp hneg
    change a.toInt < 0 at hless
    rw [if_pos hneg, BitVec.toNat_neg]
    split_ifs at hint <;> omega
  · have hless := fun h => hneg (BitVec.slt_iff_toInt_lt.mpr h)
    change ¬a.toInt < 0 at hless
    rw [if_neg hneg]
    split_ifs at hint <;> omega

theorem natAbs_toInt_le (a : Word) : a.toInt.natAbs ≤ 2 ^ 31 := by
  have hlower := BitVec.le_toInt a
  have hupper := BitVec.toInt_lt (x := a)
  omega

/-- The value of a double word, and of its two's complement. -/
theorem signed_value {n : Nat} (h : n ≤ 2 ^ 31 * 2 ^ 31) (negative : Bool) :
    (let d := if negative then (2 ^ 64 - n) % 2 ^ 64 else n
      if d < 2 ^ 63 then (d : Int) else (d : Int) - 2 ^ 64) = if negative then -(n : Int) else n := by
  cases negative with
  | false =>
      rw [if_neg Bool.false_ne_true]
      dsimp only
      rw [if_neg Bool.false_ne_true, if_pos (by omega)]
  | true =>
      rw [if_pos rfl]
      dsimp only
      rw [if_pos rfl]
      split_ifs <;> omega

theorem mult_signed (a b : Word) : ((mult a b true).1 ++ (mult a b true).2).toInt = a.toInt * b.toInt := by
  have hsign : ∀ x : Word, (x.slt 0 = true ∧ x.toInt = -(x.toInt.natAbs : Int)) ∨
      (x.slt 0 = false ∧ x.toInt = (x.toInt.natAbs : Int)) := by
    intro x
    by_cases hneg : x.slt 0 = true
    · have hless := BitVec.slt_iff_toInt_lt.mp hneg
      change x.toInt < 0 at hless
      exact .inl ⟨hneg, by omega⟩
    · have hless := fun h => hneg (BitVec.slt_iff_toInt_lt.mpr h)
      change ¬x.toInt < 0 at hless
      exact .inr ⟨Bool.eq_false_iff.mpr hneg, by omega⟩
  have ha : (operand true a).toNat = a.toInt.natAbs := toNat_magnitude a
  have hb : (operand true b).toNat = b.toInt.natAbs := toNat_magnitude b
  have hproduct : a.toInt.natAbs * b.toInt.natAbs ≤ 2 ^ 31 * 2 ^ 31 :=
    Nat.mul_le_mul (natAbs_toInt_le a) (natAbs_toInt_le b)
  have hvalue := signed_value hproduct (a.slt 0 ^^ b.slt 0)
  rw [toInt_append_word, double_mult, ha, hb]
  refine hvalue.trans ?_
  rw [Int.natCast_mul]
  rcases hsign a with ⟨hslt, haint⟩ | ⟨hslt, haint⟩ <;> rcases hsign b with ⟨hslt', hbint⟩ | ⟨hslt', hbint⟩ <;>
    rw [hslt, hslt'] <;> conv_rhs => rw [haint, hbint]
  · exact (Int.neg_mul_neg _ _).symm
  · exact (Int.neg_mul _ _).symm
  · exact (Int.mul_neg _ _).symm
  · rfl

/-- `MULT` and `MULTU` leave the exact products in `HI` and `LO`. -/
theorem products_exact :
    (∀ a b : Word, (mult a b true).1 ++ (mult a b true).2 = BitVec.ofInt 64 (a.toInt * b.toInt) ∧
      ((mult a b true).1 ++ (mult a b true).2).toInt = a.toInt * b.toInt ∧
      ((mult a b false).1 ++ (mult a b false).2).toNat = a.toNat * b.toNat) ∧
    ∀ (i : Instruction) (m : Machine) (signedArith : Bool),
      i.opCode = (if signedArith then OpCode.mult else OpCode.multu) →
      ∃ p, i.execute m = .completed p ∧
        p.machine.registers hiReg = (mult (m.registers (general i.rs)) (m.registers (general i.rt)) signedArith).1 ∧
        p.machine.registers loReg = (mult (m.registers (general i.rs)) (m.registers (general i.rt)) signedArith).2 := by
  refine ⟨?_, ?_⟩
  · intro a b
    refine ⟨?_, mult_signed a b, mult_unsigned a b⟩
    rw [← mult_signed]
    exact (BitVec.ofInt_toInt).symm
  · intro i m signedArith hop
    unfold Instruction.execute
    rw [hop]
    cases signedArith <;> exact ⟨_, rfl, rfl, rfl⟩

/-- The square of the most negative value. -/
theorem products_exact_least : ∃ p, (⟨.mult, 1, 2, 0, 0⟩ : Instruction).execute
    ⟨fun _ => 0x80000000, fun _ => 0, .tlb []⟩ = .completed p ∧
      (p.machine.registers hiReg ++ p.machine.registers loReg).toInt = 2 ^ 62 := by
  obtain ⟨p, hexecute, hhi, hlo⟩ := products_exact.2 ⟨.mult, 1, 2, 0, 0⟩
    ⟨fun _ => 0x80000000, fun _ => 0, .tlb []⟩ true rfl
  refine ⟨p, hexecute, ?_⟩
  rw [hhi, hlo, (products_exact.1 _ _).2.1]
  decide

end Products

end Nachos
