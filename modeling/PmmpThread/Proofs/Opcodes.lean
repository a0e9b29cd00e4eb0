/-
What the operands of a copied instruction stand for.

# Constants

The code finds the index of the literal in the original block and makes an
operand for the same index in the new one. With addresses nothing is lost
on the way. With offsets the operand is cut to 32 bits, and it still stands
for the literal exactly when the distance fits (`rtConstant_relocateConst`);
in the block that the caller asks for it does (`block_fits`).

# Jumps

A jump is no constant, so its operand is relocated once
(`operand_copyOpline_jump`).
-/
import Mathlib.Tactic.Linarith
import PmmpThread.Model.Opcodes

namespace PmmpThread.Model

-- ============================================================= int32_t

/-- The cut loses nothing of a value that fits. -/
theorem int32_offset (x : Int) : int32 (x % 2 ^ 32) = x ↔ IsInt32 x := by
  have hcut : int32 (x % 2 ^ 32) = x.bmod (2 ^ 32) := Int.emod_bmod x _
  rw [hcut]
  constructor
  · intro h
    have hlo := Int.le_bmod (x := x) (m := 2 ^ 32) (by decide)
    have hhi := Int.bmod_lt (x := x) (m := 2 ^ 32) (by decide)
    unfold IsInt32
    omega
  · rintro ⟨hlo, hhi⟩
    apply Int.bmod_eq_of_le
    · omega
    · omega

namespace Build

variable (B : Build) {a : OpArray} {literals memory : Int} {i : Nat}
  {op : ZendOp}

-- =========================================================== addresses

/-- The difference of two pointers into an array. -/
theorem stride_sub_div {size : Nat} (hsize : 0 < size) (base j : Int) :
    (base + j * size - base) / size = j := by
  rw [add_sub_cancel_left]
  apply Int.mul_ediv_cancel
  omega

theorem opAddr_sub_div (opcodes j : Int) :
    (B.opAddr opcodes j - opcodes) / B.sizeofOp = j :=
  stride_sub_div B.op_pos opcodes j

theorem zvalAddr_sub_div (literals k : Int) :
    (B.zvalAddr literals k - literals) / B.sizeofZval = k :=
  stride_sub_div B.zval_pos literals k

-- =========================================================== constants

/-- The new operand stands for the literal with the same index, unless it
is an offset that does not fit. -/
theorem rtConstant_relocateConst {node k : Int}
    (hk : B.rtConstant (B.opAddr a.opcodes i) node
      = B.zvalAddr literals k) :
    B.rtConstant (B.opAddr memory i)
        (B.relocateConst a literals memory i node) = B.zvalAddr a.literals k
      ↔ B.absConst = true
        ∨ IsInt32 (B.zvalAddr a.literals k - B.opAddr memory i) := by
  unfold rtConstant relocateConst at *
  cases habs : B.absConst with
  | true =>
      rw [habs] at hk
      simp only [if_true, true_or, iff_true] at hk ⊢
      rw [hk]
      unfold zvalAddr
      ring
  | false =>
      rw [habs] at hk
      simp only [Bool.false_eq_true, if_false, false_or] at hk ⊢
      rw [hk, zvalAddr_sub_div, ← int32_offset]
      constructor
      · intro h
        omega
      · intro h
        rw [h]
        omega

/-- In one block with the instructions every literal is near enough. -/
theorem block_fits {last lastLiteral : Nat}
    (hsize : B.blockSize last lastLiteral ≤ 2 ^ 31) (hi : i < last)
    {k : Nat} (hk : k < lastLiteral) :
    IsInt32 (B.zvalAddr (B.literalsMemory memory last) k
      - B.opAddr memory i) := by
  have hop : i * B.sizeofOp ≤ B.sizeofOp * last := by
    rw [Nat.mul_comm]
    exact Nat.mul_le_mul_left _ hi.le
  have hzval : k * B.sizeofZval + B.sizeofZval
      ≤ B.sizeofZval * lastLiteral := by
    calc k * B.sizeofZval + B.sizeofZval = B.sizeofZval * (k + 1) := by ring
      _ ≤ B.sizeofZval * lastLiteral := Nat.mul_le_mul_left _ hk
  have hpos := B.zval_pos
  have hdist : B.zvalAddr (B.literalsMemory memory last) k
      - B.opAddr memory i
      = ((B.alignedOps last + k * B.sizeofZval : Nat) : Int)
        - ((i * B.sizeofOp : Nat) : Int) := by
    unfold zvalAddr literalsMemory opAddr
    push_cast
    ring
  unfold blockSize at hsize
  unfold alignedOps at hsize hdist
  rw [hdist]
  unfold IsInt32
  omega

-- ============================================================ one turn

@[simp] theorem operandType_relocateOp1 (a : OpArray) (literals memory : Int)
    (i : Nat) (op : ZendOp) (o : Operand) :
    (B.relocateOp1 a literals memory i op).operandType o
      = op.operandType o := by
  unfold relocateOp1
  split_ifs <;> cases o <;> rfl

@[simp] theorem jumpOperand_relocateOps :
    (B.relocateOp2 a literals memory i
      (B.relocateOp1 a literals memory i op)).jumpOperand
      = op.jumpOperand := by
  unfold relocateOp2 relocateOp1
  split_ifs <;> rfl

@[simp] theorem listed_relocateOps :
    B.listed (B.relocateOp2 a literals memory i
      (B.relocateOp1 a literals memory i op)) = B.listed op := by
  unfold relocateOp2 relocateOp1
  split_ifs <;> rfl

/-- Before the jumps: what is constant is relocated, the rest is not. -/
theorem operand_relocateOps (a : OpArray) (literals memory : Int) (i : Nat)
    (op : ZendOp) (o : Operand) :
    (B.relocateOp2 a literals memory i
      (B.relocateOp1 a literals memory i op)).operand o
      = if op.operandType o = .const then
          B.relocateConst a literals memory i (op.operand o)
        else op.operand o := by
  have h₂ := B.operandType_relocateOp1 a literals memory i op .op2
  unfold ZendOp.operandType at h₂ ⊢
  unfold relocateOp2
  cases o with
  | op1 =>
      unfold relocateOp1
      split_ifs <;> rfl
  | op2 =>
      dsimp only at h₂ ⊢
      rw [h₂]
      unfold relocateOp1
      split_ifs <;> rfl

/-- A constant is relocated once: it is no jump. -/
theorem operand_copyOpline_const (hop : op ∈ a.ops) {o : Operand}
    (ho : op.operandType o = .const) :
    (B.copyOpline a literals memory i op).operand o
      = B.relocateConst a literals memory i (op.operand o) := by
  have hops := B.operand_relocateOps a literals memory i op o
  rw [if_pos ho] at hops
  rw [← hops]
  unfold copyOpline relocateJumps
  split_ifs
  · rw [jumpOperand_relocateOps]
    cases hj : op.jumpOperand with
    | none => rfl
    | some o' =>
        have hne : o ≠ o' := by
          rintro rfl
          exact a.jump_not_const op hop o hj ho
        cases o <;> cases o' <;> first | rfl | exact absurd rfl hne
  · rfl

/-- A jump is relocated once: it is no constant. -/
theorem operand_copyOpline_jump (hop : op ∈ a.ops) {o : Operand}
    (habs : B.absJmp = true) (hpass : a.donePassTwo = true)
    (hlisted : B.listed op = true) (ho : op.jumpOperand = some o) :
    (B.copyOpline a literals memory i op).operand o
      = B.relocateJmp a memory (op.operand o) := by
  have hops := B.operand_relocateOps a literals memory i op o
  rw [if_neg (a.jump_not_const op hop o ho)] at hops
  rw [← hops]
  unfold copyOpline relocateJumps
  rw [listed_relocateOps, habs, hpass, hlisted, jumpOperand_relocateOps, ho]
  cases o <;> rfl

-- ========================================================== the function

/-- The constant operand `o` of the instruction `i` stands for the literal
`k`. -/
def StandsForLiteral (opcodes literals : Int) (i : Nat) (op : ZendOp)
    (o : Operand) (k : Int) : Prop :=
  B.rtConstant (B.opAddr opcodes i) (op.operand o) = B.zvalAddr literals k

/-- The jump operand `o` of the instruction `i` leads to the instruction
`j`. -/
def LeadsTo (opcodes : Int) (i : Nat) (op : ZendOp) (o : Operand) (j : Int) :
    Prop :=
  B.jmpAddr (B.opAddr opcodes i) (op.operand o) = B.opAddr opcodes j

/-- Every constant of a copied instruction stands for the literal with the
index it had, always with addresses, and exactly when the distance fits
with offsets, as it does in the block that is asked for. Every jump that is
an address leads to the copy of the instruction it led to. -/
theorem copyOpcodes_relocates (a : OpArray) (literals memory : Int) {i : Nat}
    {op : ZendOp} (hi : a.ops[i]? = some op) :
    ∃ op', (B.copyOpcodes a literals memory)[i]? = some op'
      ∧ (∀ o k, op.operandType o = .const →
        B.StandsForLiteral a.opcodes literals i op o k →
          (B.StandsForLiteral memory a.literals i op' o k
            ↔ B.absConst = true
              ∨ IsInt32 (B.zvalAddr a.literals k - B.opAddr memory i)))
      ∧ (∀ o (k lastLiteral : Nat), op.operandType o = .const →
        B.StandsForLiteral a.opcodes literals i op o k →
        a.literals = B.literalsMemory memory a.ops.length →
        B.blockSize a.ops.length lastLiteral ≤ 2 ^ 31 → k < lastLiteral →
          B.StandsForLiteral memory a.literals i op' o k)
      ∧ ∀ o j, B.absJmp = true → a.donePassTwo = true →
        B.listed op = true → op.jumpOperand = some o →
        B.LeadsTo a.opcodes i op o j → B.LeadsTo memory i op' o j := by
  have hop : op ∈ a.ops := List.mem_of_getElem? hi
  have hlt : i < a.ops.length := (List.getElem?_eq_some_iff.mp hi).1
  have hconst : ∀ o k, op.operandType o = .const →
      B.StandsForLiteral a.opcodes literals i op o k →
        (B.StandsForLiteral memory a.literals i
            (B.copyOpline a literals memory i op) o k
          ↔ B.absConst = true
            ∨ IsInt32 (B.zvalAddr a.literals k - B.opAddr memory i)) := by
    intro o k ho hk
    unfold StandsForLiteral
    rw [B.operand_copyOpline_const hop ho]
    exact B.rtConstant_relocateConst hk
  refine ⟨B.copyOpline a literals memory i op, ?_, hconst, ?_, ?_⟩
  · unfold copyOpcodes
    rw [List.getElem?_mapIdx, hi]
    rfl
  · intro o k lastLiteral ho hk hblock hsize hlast
    refine (hconst o k ho hk).mpr (Or.inr ?_)
    rw [hblock]
    exact B.block_fits hsize hlt hlast
  · intro o j habs hpass hlisted ho hj
    unfold LeadsTo jmpAddr at *
    rw [habs, if_pos rfl] at hj ⊢
    rw [B.operand_copyOpline_jump hop habs hpass hlisted ho, hj]
    unfold relocateJmp
    rw [opAddr_sub_div]

/-- A 64-bit engine. -/
def lp64 : Build where
  absConst := false
  absJmp := false
  version := 80300
  sizeofOp := 32
  sizeofZval := 16
  op_pos := by decide
  zval_pos := by decide

/-- `echo "hi"; return 1;`, with its literals behind it and the new ones
at `literals`. -/
def greeting (literals : Int) : OpArray where
  opcodes := 4096
  ops := [⟨.other 136, .const, .unused, 64, 0, 0, none⟩,
    ⟨.other 62, .const, .unused, 48, 0, 0, none⟩]
  literals := literals
  literalTypes := [6, 4]
  donePassTwo := true
  jump_not_const := by simp [ZendOp.jumpOperand]

/-- In one block, as the caller has it. -/
theorem copyOpcodes_relocates_block : ∃ op',
    (lp64.copyOpcodes (greeting 8256) 4160 8192)[1]? = some op'
      ∧ lp64.StandsForLiteral 8192 8256 1 op' .op1 1 := by
  obtain ⟨op', hop', -, hblock, -⟩ :=
    lp64.copyOpcodes_relocates (greeting 8256) 4160 8192 (i := 1) rfl
  refine ⟨op', hop', hblock .op1 1 2 rfl rfl rfl ?_ ?_⟩
  · decide
  · decide

/-- With the new literals two gigabytes away. -/
theorem copyOpcodes_far :
    (∀ op, (greeting (8192 + 2 ^ 31)).ops[0]? = some op →
      op.operandType .op1 = .const
        ∧ lp64.StandsForLiteral 4096 4160 0 op .op1 0)
      ∧ ∀ op', (lp64.copyOpcodes (greeting (8192 + 2 ^ 31)) 4160 8192)[0]?
          = some op' →
        ¬ lp64.StandsForLiteral 8192 (8192 + 2 ^ 31) 0 op' .op1 0 := by
  refine ⟨fun op hop => ?_, fun op' hop' => ?_⟩
  · cases hop
    exact ⟨rfl, rfl⟩
  · cases hop'
    unfold StandsForLiteral
    decide

end Build

end PmmpThread.Model
