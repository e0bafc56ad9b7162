import Aclm.Encoder.Decoding
import Aclm.X64.Immediate
import Aclm.X64.Machine

/-! Constants in the code: the three encodings that load one into a register and the choice among
them, and the instructions that carry one as an operand. -/

set_option autoImplicit false

namespace Aclm.Encoder

open X64 (Byte Word Reg Rex Spells Machine Cpu Env ImmInstr Narrow narrowed)

/-! ### Loading a constant -/

/-- From wherever it stands, the code leaves `v` in the register and all else as it was. -/
def Loads (bs : List Byte) (r : Reg) (v : Word) : Prop :=
  ∀ (M : Machine) (o : Nat) (c : Cpu), M.CodeAt o bs → M.Completes o (o + bs.length) c (c.set r v)

/-- The encodings of a load: `mov r32, imm32`, `mov r/m64, simm32` and `movabs`. -/
inductive LoadForm where
  | zeroExtended | signExtended | whole
  deriving DecidableEq, Repr

namespace LoadForm

/-- The form with the low bits of `v` in its field. -/
def bytes (r : Reg) (v : Int) : LoadForm → List Byte
  | zeroExtended => (if r.num ≥ 8 then [0x41#8] else []) ++ [BitVec.ofNat 8 (0xB8 + (r.num &&& 7))] ++ u32 v
  | signExtended => regExt [0xC7] 0 r ++ u32 v
  | whole => [rex 1 0 0 (r.num >>> 3), BitVec.ofNat 8 (0xB8 + (r.num &&& 7))] ++ u64 v

def value (v : Int) : LoadForm → Int
  | zeroExtended => v % 2 ^ 32
  | signExtended => narrowed 32 v
  | whole => v

theorem spells (r : Reg) (v : Int) (form : LoadForm) :
    Spells (form.bytes r v) [.movImm r (BitVec.ofInt 64 (form.value v))] := by
  cases form with
  | zeroExtended =>
    have same : u32 v = u32 (v % 2 ^ 32) := by simp only [u32, X64.ofSigned, Int.emod_emod]
    rw [bytes, value, same]
    exact spells_movImm32 r (Int.emod_nonneg v (by decide)) (by omega)
  | signExtended =>
    refine spells_regExt (by decide) fun rest => ?_
    simp [X64.decodeOp, X64.decodeRm, takeRm_ext, u32, X64.takeS32_narrowed, value]
  | whole =>
    have same : u64 v = u64 (v % 2 ^ 64) := by simp only [u64, X64.ofSigned, Int.emod_emod]
    rw [bytes, value, same, ← ofInt_emod]
    exact spells_movImm64 r (Int.emod_nonneg v (by decide)) (by omega)

end LoadForm

theorem Loads.of_spells {bs : List Byte} {r : Reg} {v : Word} (spelled : Spells bs [.movImm r v]) : Loads bs r v :=
  fun _ _ _ here => Machine.inside_of_spells spelled here rfl

/-- What a load leaves is what its encoding says. -/
theorem Loads.value {bs : List Byte} {r : Reg} {v w : Word} (loads : Loads bs r w) (spelled : Spells bs [.movImm r v]) :
    v = w := by
  have here : (⟨bs, 0, .silent⟩ : Machine).CodeAt 0 bs := ⟨[], by simp⟩
  have same := (Loads.of_spells spelled _ 0 (Cpu.filled 0) here).unique (loads _ 0 (Cpu.filled 0) here)
  simpa using congrArg (fun c => c.reg r) same

theorem movRegImm64_length (r : Reg) (imm : Int) :
    (movRegImm64Bytes false r imm).length =
      if imm % 2 ^ 64 ≤ 0xFFFFFFFF then (if r.num ≥ 8 then 6 else 5)
      else if imm % 2 ^ 64 ≥ 0xFFFFFFFF80000000 then 7 else 10 := by
  have lower : 0 ≤ imm % 2 ^ 64 := Int.emod_nonneg _ (by decide)
  have upper : imm % 2 ^ 64 < 2 ^ 64 := Int.emod_lt_of_pos _ (by decide)
  simp only [movRegImm64Bytes]
  generalize imm % 2 ^ 64 = v at lower upper ⊢
  have small (w : Int) : ((if r.num ≥ 8 then [0x41#8] else []) ++ [BitVec.ofNat 8 (0xB8 + (r.num &&& 7))] ++ u32 w).length =
      if r.num ≥ 8 then 6 else 5 := by
    split <;> simp [u32]
  rw [if_neg Bool.false_ne_true]
  by_cases zero : v = 0
  · rw [if_pos zero, if_pos (by omega : v ≤ 0xFFFFFFFF)]
    exact small 0
  by_cases unsigned : v ≤ 0xFFFFFFFF
  · rw [if_neg zero, if_pos unsigned, if_pos unsigned]
    exact small v
  rw [if_neg zero, if_neg unsigned, if_neg unsigned, if_neg (by omega : ¬v < 0x80000000)]
  by_cases negative : v ≥ 0xFFFFFFFF80000000
  · rw [if_pos (by omega), if_pos negative]
    simp [u32]
  · rw [if_neg (by omega), if_neg negative]
    simp [u64]

/-- Both modes load the constant, and no encoding that loads it is shorter than the normal one. -/
theorem movRegImm64_agrees (r : Reg) (imm : Int) :
    (∀ deterministic, Loads (movRegImm64Bytes deterministic r imm) r (BitVec.ofInt 64 imm)) ∧
      ∀ (form : LoadForm) (v : Int), Loads (form.bytes r v) r (BitVec.ofInt 64 imm) →
        (movRegImm64Bytes false r imm).length ≤ (form.bytes r v).length := by
  refine ⟨fun deterministic => .of_spells (spells_movRegImm64 deterministic r imm), fun form v loads => ?_⟩
  have same := loads.value (form.spells r v)
  rw [movRegImm64_length]
  cases form with
  | zeroExtended =>
    rw [X64.ofInt_eq_iff, LoadForm.value] at same
    have size : (LoadForm.zeroExtended.bytes r v).length = if r.num ≥ 8 then 6 else 5 := by
      simp only [LoadForm.bytes]
      split <;> simp [u32]
    rw [size, if_pos (by omega)]
  | signExtended =>
    have size : (LoadForm.signExtended.bytes r v).length = 7 := by simp [LoadForm.bytes, regExt, u32]
    rw [X64.ofInt_eq_iff, LoadForm.value, narrowed] at same
    rw [size]
    split_ifs <;> omega
  | whole =>
    have size : (LoadForm.whole.bytes r v).length = 10 := by simp [LoadForm.bytes, u64]
    rw [size]
    split_ifs <;> omega

end Aclm.Encoder
