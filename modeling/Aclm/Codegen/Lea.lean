import Aclm.Codegen.Notation
import Aclm.Codegen.Run
import Aclm.Parser.Terms
import Aclm.X64.Affine
import Mathlib.Data.Fintype.Basic

/-! `cpu:lea` with any number of terms between its brackets. The parser keeps one index, one scale and
one offset of them, the encoder one byte of the offset, and the address of a datum is brought to R12. -/

set_option autoImplicit false

namespace Aclm

open X64 (Byte Reg Word Cpu Env Instr Machine Spells Narrow narrowed)

namespace Encoder

/-! ### The instruction -/

/-- With an index or without one, the instruction has room for a signed byte. -/
theorem spells_lea (dst base : Reg) (disp : Int) {index : Option Reg} {scale : Int} (notRsp : index ≠ some .rsp)
    (known : scale ∈ [1, 2, 4, 8]) : ∃ bs, leaRegMem dst base disp index scale = .bytes bs ∧
      Spells bs [.lea dst ⟨some base, index.map (·, scaleLog scale), BitVec.ofInt 64 (narrowed 8 disp)⟩] := by
  cases index with
  | none => exact spells_leaRegMem dst base disp scale
  | some i =>
    obtain ⟨sc, bits, log, small⟩ : ∃ sc, scaleBits scale = .ok sc ∧ sc = scaleLog scale ∧ sc < 4 := by
      simp only [List.mem_cons, List.not_mem_nil, or_false] at known
      rcases known with rfl | rfl | rfl | rfl <;> exact ⟨_, rfl, by decide, by decide⟩
    have other : i ≠ .rsp := fun same => notRsp (congrArg some same)
    have pfx := rex_eq true dst.high i.high base.high
    simp only [Bool.toNat_true] at pfx
    refine ⟨_, rfl, Spells.single (by simp) fun rest => ?_⟩
    have read (mod : Nat) (tail : List Byte) (lt : mod < 3) (taken : X64.takeDisp mod (tail ++ rest) =
        some (narrowed 8 disp, rest)) (noRip : ¬(base.low = 5 ∧ mod = 0)) :
        X64.takeRm ⟨true, dst.high, i.high, base.high⟩
          (modrm mod dst.low 4 :: BitVec.ofNat 8 (sc <<< 6 ||| i.low <<< 3 ||| base.low) :: (tail ++ rest)) =
        some (dst.low, .mem ⟨some base, some (i, scaleLog scale), BitVec.ofInt 64 (narrowed 8 disp)⟩, rest) := by
      rw [modrm_eq (by omega) dst.low_lt (by decide), sib_eq small i.low_lt base.low_lt,
        X64.takeRm_sib dst.low_lt lt taken small i.low_lt rfl noRip, Reg.ofFields_high_low, if_neg other, log]
    simp only [bits, shift_three, and_seven, pfx, List.cons_append, List.nil_append, decode_rex]
    generalize BitVec.ofNat 8 (sc <<< 6 ||| i.low <<< 3 ||| base.low) = sib at read ⊢
    by_cases byte : disp ≠ 0 ∨ base.low = 5
    · have operand := read 1 (u8 disp) (by decide) (takeDisp_byte disp rest) (by simp)
      simp [X64.decodeOp, X64.decodeRm, if_pos byte, operand]
    · have zero : disp = 0 := by tauto
      have operand := read 0 [] (by decide) (takeDisp_zero zero rest) (by tauto)
      rw [List.nil_append] at operand
      simp [X64.decodeOp, X64.decodeRm, if_neg byte, operand]

/-- The instruction is run where it stands. -/
theorem Listing.Loaded.lea {L : Listing} {M : Machine} (loaded : L.Loaded M) {i : Nat} {dst base : Reg} {disp scale : Int}
    {index : Option Reg} (here : L.At i [leaRegMem dst base disp index scale]) (notRsp : index ≠ some .rsp)
    (known : scale ∈ [1, 2, 4, 8]) (c : Cpu) : M.Completes (L.offset i) (L.offset (i + 1)) c
      (c.set dst (c.reg base + (index.elim 0 fun r => c.reg r * BitVec.ofInt 64 scale) + BitVec.ofInt 64 (narrowed 8 disp))) := by
  obtain ⟨bs, isBytes, spelled⟩ := spells_lea dst base disp notRsp known
  rw [isBytes] at here
  have code := loaded.codeAt here
  have ending := loaded.length here
  have whole : (Call.bytes bs).assembled L.deterministic (linkFill L.offs) (L.offset i) = bs := rfl
  rw [whole] at code ending
  rw [← ending]
  refine Machine.inside_of_spells spelled code ?_
  have scaled (v : Word) : v <<< scaleLog scale = v * BitVec.ofInt 64 scale := Codegen.scaled known v
  cases index <;> simp [X64.execAll, Instr.exec, Cpu.address, scaled]

end Encoder

namespace Codegen

open Encoder
open Parse (Term Names Gathered LeaWritten baseExpr)

/-! ### The code -/

/-- What a base between the brackets is: a register, or the address of a datum. -/
def leaBase (b : String) : Except PyErr Operand := if isRegName b then (resolve b).map .reg else .ok (.address (data b))

/-- The code of `cpu:lea`. -/
def termsCalls (dst : Reg) (index : Option Reg) (scale off : Int) : Operand → List Call
  | .reg r => [leaRegMem dst r off index scale]
  | .address label =>
    if index = none ∧ off = 0 then [.leaRegLabel dst label] else [.leaRegLabel .r12 label, leaRegMem dst .r12 off index scale]
  | _ => []

section Emission

variable {g g' : CodeGenerator} {x b : String} {index : Option Expr} {i : Option Reg} {scale off : Int}

theorem leaBase_cases {base : Operand} (based : leaBase b = .ok base) :
    (∃ r, isRegName b = true ∧ resolve b = .ok r ∧ base = .reg r) ∨ isRegName b = false ∧ base = .address (data b) := by
  unfold leaBase at based
  split at based
  · next reg =>
    cases resolved : resolve b with
    | error e =>
      rw [resolved] at based
      cases based
    | ok r =>
      rw [resolved] at based
      cases based
      exact .inl ⟨r, reg, rfl, rfl⟩
  · next other =>
    cases based
    exact .inr ⟨by simpa using other, rfl⟩

theorem names_operand (names : Names index i) : IsIndex index ∧ indexOperand index = .ok i := by
  cases names with
  | none => exact ⟨trivial, rfl⟩
  | reg named => exact ⟨trivial, by rw [indexOperand, named]; rfl⟩

theorem cpuLea_ok (names : Names index i) :
    emitOp (.cpuLea x (baseExpr b) index scale off) g = .ok () g' ↔ ∃ dst base, resolve x = .ok dst ∧ leaBase b = .ok base ∧
      g' = g.withScript (g.script ++ termsCalls dst i scale off base) := by
  obtain ⟨isIndex, operand⟩ := names_operand names
  rw [emitOp]
  by_cases isReg : isRegName b = true
  · rw [baseExpr, leaBase, if_pos isReg, if_pos isReg]
    simp only [cpuLea, basePhys, reg_bind_ok, indexReg_bind_ok isIndex, operand, asm_ok, Except.ok.injEq, exists_eq_left']
    cases resolve b with
    | error e => simp [Except.map]
    | ok r => simp [Except.map, termsCalls]
  · rw [baseExpr, leaBase, if_neg isReg, if_neg isReg]
    simp only [Except.ok.injEq, termsCalls]
    cases names with
    | none =>
      by_cases zero : off = 0
      · simp [cpuLea, reg_bind_ok, asm_ok, zero]
      · simp [cpuLea, basePhys, reg_bind_ok, asm_bind_ok, asm_ok, zero]
    | reg named => simp [cpuLea, basePhys, reg_bind_ok, asm_bind_ok, indexReg, asm_ok, named]

end Emission

/-! ### What it computes -/

/-- The state that the code leaves. -/
def termsState (place : String → Word) (c : Cpu) (dst : Reg) (index : Option Reg) (scale off : Int) : Operand → Cpu
  | .reg r => c.set dst (c.reg r + (index.elim 0 fun i => c.reg i * BitVec.ofInt 64 scale) + BitVec.ofInt 64 (narrowed 8 off))
  | .address label =>
    if index = none ∧ off = 0 then c.set dst (place label)
    else
      let d := c.set .r12 (place label)
      d.set dst (place label + (index.elim 0 fun i => d.reg i * BitVec.ofInt 64 scale) + BitVec.ofInt 64 (narrowed 8 off))
  | _ => c

theorem termsCalls_completes {L : Listing} {M : Machine} (loaded : L.Loaded M) {i : Nat} {dst : Reg} {index : Option Reg}
    {scale off : Int} {base : Operand} (here : L.At i (termsCalls dst index scale off base)) (notRsp : index ≠ some .rsp)
    (known : scale ∈ [1, 2, 4, 8]) (c : Cpu) :
    M.Completes (L.offset i) (L.offset (i + (termsCalls dst index scale off base).length)) c
      (termsState L.address c dst index scale off base) := by
  cases base with
  | reg r => exact loaded.lea here notRsp known c
  | address label =>
    simp only [termsCalls, termsState] at here ⊢
    by_cases plain : index = none ∧ off = 0
    · rw [if_pos plain] at here ⊢
      rw [if_pos plain]
      exact loaded.inside (.straight here rfl (Nat.le_refl _) (Nat.le_refl _))
    · rw [if_neg plain] at here ⊢
      rw [if_neg plain]
      obtain ⟨first, second⟩ := here.cons
      have front : M.Completes (L.offset i) (L.offset (i + 1)) c (c.set .r12 (L.address label)) :=
        loaded.inside (.straight first rfl (Nat.le_refl _) (Nat.le_refl _))
      have back := loaded.lea second notRsp known (c.set .r12 (L.address label))
      simp only [X64.Cpu.set_reg, if_true] at back
      exact (X64.Machine.Inside.mono front (Nat.le_refl _) (Listing.offset_le (Nat.le_succ _))).trans
        (X64.Machine.Inside.mono back (Listing.offset_le (Nat.le_succ _)) (Nat.le_refl _))
  | _ => exact .refl _

end Codegen

/-! ### What is written -/

instance : Fintype Reg :=
  .ofList [.rax, .rcx, .rdx, .rbx, .rsp, .rbp, .rsi, .rdi, .r8, .r9, .r10, .r11, .r12, .r13, .r14, .r15]
    fun r => by cases r <;> decide

namespace Parse.Term

/-- The coefficients of the registers that the terms add up. -/
def weights : List Term → Reg → Word
  | [] => 0
  | number _ :: terms => weights terms
  | register r scale :: terms => Pi.single r (BitVec.ofInt 64 (scale.getD 1)) + weights terms

/-- The value of a term. -/
def value (c : Cpu) : Term → Word
  | number n => BitVec.ofInt 64 n
  | register r scale => c.reg r * BitVec.ofInt 64 (scale.getD 1)

theorem sum_value (c : Cpu) (terms : List Term) :
    (terms.map (value c)).sum = affine (weights terms) (BitVec.ofInt 64 (offset terms)) c.reg := by
  induction terms with
  | nil => simp [affine, weights, offset]
  | cons term terms ih =>
    rw [List.map_cons, List.sum_cons, ih]
    cases term with
    | number n => rw [value, weights, offset, BitVec.ofInt_add, add_affine]
    | register r scale => rw [value, weights, offset, mul_add_affine]

/-- The one term that the parser keeps of the registers: the last of them with the last scale. -/
def kept (terms : List Term) : List Term :=
  (lastRegister none terms).elim [] fun r => [.register r (some (lastScale 1 terms))]

theorem kept_affine (terms : List Term) (k : Word) (v : Reg → Word) :
    ((lastRegister none terms).elim 0 fun r => v r * BitVec.ofInt 64 (lastScale 1 terms)) + k =
      affine (weights (kept terms)) k v := by
  unfold kept
  cases lastRegister none terms with
  | none => simp [affine, weights]
  | some r =>
    rw [Option.elim_some, Option.elim_some, weights, weights, ← mul_add_affine]
    simp [affine]

/-! #### At most one register -/

/-- The scales of the terms that have a register, one where none is written. -/
def scales : List Term → List Int
  | [] => []
  | number _ :: terms => scales terms
  | register _ scale :: terms => scale.getD 1 :: scales terms

theorem weights_ones (terms : List Term) : affine (weights terms) 0 1 = BitVec.ofInt 64 (scales terms).sum := by
  induction terms with
  | nil => simp [affine, weights, scales]
  | cons term terms ih =>
    cases term with
    | number n => exact ih
    | register r scale =>
      rw [weights, ← mul_add_affine, ih, scales, List.sum_cons, BitVec.ofInt_add]
      exact congrArg (· + _) (one_mul _)

theorem lastScale_le (terms : List Term) {s : Int} (positive : 1 ≤ s) (known : ∀ v ∈ scales terms, 1 ≤ v) :
    1 ≤ lastScale s terms ∧ lastScale s terms + (scales terms).length ≤ s + (scales terms).sum := by
  induction terms generalizing s with
  | nil => simp [lastScale, scales, positive]
  | cons term terms ih =>
    cases term with
    | number n => exact ih positive known
    | register r scale =>
      have later : ∀ v ∈ scales terms, 1 ≤ v := fun v member => known v (List.mem_cons_of_mem _ member)
      have own : 1 ≤ scale.getD 1 := known _ List.mem_cons_self
      cases scale with
      | none =>
        have rest := ih positive later
        simp only [lastScale, scales, Option.getD_none, List.length_cons, List.sum_cons] at rest ⊢
        push_cast
        exact ⟨rest.1, by omega⟩
      | some v =>
        have rest := ih own later
        simp only [lastScale, scales, Option.getD_some, List.length_cons, List.sum_cons] at rest own ⊢
        push_cast
        exact ⟨rest.1, by omega⟩

theorem scales_nil {terms : List Term} (none' : scales terms = []) (r : Option Reg) (s : Int) :
    weights terms = 0 ∧ lastRegister r terms = r ∧ lastScale s terms = s := by
  induction terms with
  | nil => exact ⟨rfl, rfl, rfl⟩
  | cons term terms ih =>
    cases term with
    | number n => exact ih none'
    | register => cases none'

theorem scales_single {terms : List Term} {v : Int} (one : scales terms = [v]) :
    ∃ r, weights terms = Pi.single r (BitVec.ofInt 64 v) ∧ lastRegister none terms = some r ∧ lastScale 1 terms = v := by
  induction terms with
  | nil => cases one
  | cons term terms ih =>
    cases term with
    | number n => exact ih one
    | register r scale =>
      obtain ⟨rfl, rest⟩ := List.cons.inj one
      obtain ⟨zero, last, kept⟩ := scales_nil rest (some r) (scale.getD 1)
      exact ⟨r, by rw [weights, zero, add_zero], last, kept⟩

theorem scales_length (terms : List Term) : (scales terms).length ≤ terms.length := by
  induction terms with
  | nil => exact Nat.le_refl _
  | cons term terms ih =>
    cases term with
    | number n => exact Nat.le_succ_of_le ih
    | register r scale => exact Nat.succ_le_succ ih

/-- Fewer than 2^61 terms lose nothing just where at most one of them has a register. -/
theorem weights_kept_iff {terms : List Term} (known : ∀ v ∈ scales terms, v ∈ [1, 2, 4, 8]) (short : terms.length < 2 ^ 61) :
    weights terms = weights (kept terms) ↔ (scales terms).length ≤ 1 := by
  have positive : ∀ v ∈ scales terms, 1 ≤ v := fun v member => by
    have := known v member
    simp only [List.mem_cons, List.not_mem_nil, or_false] at this
    omega
  constructor
  · intro same
    -- With ones in all registers the two sums of scales would be equal, but two scales or more come to more than the last.
    have sums : BitVec.ofInt 64 (scales terms).sum = BitVec.ofInt 64 (scales (kept terms)).sum := by
      rw [← weights_ones, ← weights_ones, same]
    have upper := List.sum_le_card_nsmul (scales terms) 8 fun v member => by
      have := known v member
      simp only [List.mem_cons, List.not_mem_nil, or_false] at this
      omega
    have lower := List.card_nsmul_le_sum (scales terms) 1 positive
    have length := scales_length terms
    obtain ⟨scale, le⟩ := lastScale_le terms (le_refl 1) positive
    simp only [nsmul_eq_mul] at upper lower
    unfold kept at sums
    cases last : lastRegister none terms with
    | none =>
      rw [last, X64.ofInt_eq_iff] at sums
      simp only [Option.elim_none, scales, List.sum_nil] at sums
      omega
    | some r =>
      rw [last, X64.ofInt_eq_iff] at sums
      simp only [Option.elim_some, scales, Option.getD_some, List.sum_cons, List.sum_nil] at sums
      omega
  · intro few
    match one : scales terms, few with
    | [], _ =>
      obtain ⟨zero, last, -⟩ := scales_nil one none 1
      rw [zero, kept, last]
      rfl
    | [v], _ =>
      obtain ⟨r, single, last, scale⟩ := scales_single one
      rw [single, kept, last, scale, Option.elim_some, weights, weights, add_zero]
      rfl

end Parse.Term

namespace Codegen

open Encoder
open Parse (Term Names Gathered LeaWritten baseExpr)
open Parse.Term (kept lastRegister lastScale)

/-- The base and the terms added up. -/
def leaSum (place : String → Word) (c : Cpu) (base : Operand) (terms : List Term) : Word :=
  base.value place c + (terms.map (Term.value c)).sum

/-- The sum stands in the destination, and every other register that a program can name is as it was. -/
structure Sums (place : String → Word) (c d : Cpu) (dst : Reg) (base : Operand) (terms : List Term) : Prop where
  sum : d.reg dst = leaSum place c base terms
  others : ∀ r, User r → r ≠ dst → d.reg r = c.reg r

/-- The statement is rejected, or wherever its code is loaded it computes the sum from every state. -/
def LeaRight (g : CodeGenerator) (op : Op) (x b : String) (terms : List Term) : Prop :=
  ∀ (L : Listing) (M : Machine) (i : Nat) (calls : List Call), L.Loaded M → Stands L g op i calls →
    ∃ dst base, resolve x = .ok dst ∧ leaBase b = .ok base ∧
      ∀ c, ∃ d, M.Completes (L.offset i) (L.offset (i + calls.length)) c d ∧ Sums L.address c d dst base terms

/-- The registers add up to the last of them with the last scale, the offset is a signed byte, and where
the address of a datum is brought to R12, R12 is the destination and no index. -/
structure LeaFits (dst : Reg) (base : Operand) (terms : List Term) : Prop where
  weights : Term.weights terms = Term.weights (kept terms)
  narrow : Narrow 8 (Term.offset terms)
  datum : ∀ label, base = .address label → (lastRegister none terms = none ∧ Term.offset terms = 0) ∨
    (dst = .r12 ∧ lastRegister none terms ≠ some .r12)

section Sums

variable {place : String → Word} {dst : Reg} {terms : List Term}

/-- A state with given registers. -/
def withRegs (v : Reg → Word) : Cpu := ⟨v, (Cpu.filled 0).flags, fun _ => 0, []⟩

theorem withRegs_reg (v : Reg → Word) : (withRegs v).reg = v := rfl

/-- What the code leaves in the destination is the sum for all registers just where the coefficients and
the constants agree. -/
theorem kept_iff (terms : List Term) : (∀ v : Reg → Word,
    affine (Term.weights (kept terms)) (BitVec.ofInt 64 (narrowed 8 (Term.offset terms))) v =
      affine (Term.weights terms) (BitVec.ofInt 64 (Term.offset terms)) v) ↔
    Term.weights terms = Term.weights (kept terms) ∧ Narrow 8 (Term.offset terms) := by
  rw [affine_inj, X64.narrowed_iff (by decide), eq_comm]

theorem sums_reg_iff (q : Reg) : (∀ c, Sums place c
    (termsState place c dst (lastRegister none terms) (lastScale 1 terms) (Term.offset terms) (.reg q)) dst (.reg q) terms) ↔
    LeaFits dst (.reg q) terms := by
  have value (c : Cpu) : (termsState place c dst (lastRegister none terms) (lastScale 1 terms) (Term.offset terms)
      (.reg q)).reg dst = c.reg q + affine (Term.weights (kept terms)) (BitVec.ofInt 64 (narrowed 8 (Term.offset terms))) c.reg := by
    rw [← Term.kept_affine, ← BitVec.add_assoc]
    simp [termsState]
  constructor
  · intro sums
    have agree := (kept_iff terms).mp fun v => by
      have same := (sums (withRegs v)).sum
      rw [value, leaSum, Term.sum_value] at same
      exact add_left_cancel same
    exact ⟨agree.1, agree.2, by simp⟩
  · intro fits c
    refine ⟨?_, fun r _ other => by simp [termsState, other]⟩
    rw [value, leaSum, Term.sum_value, (kept_iff terms).mpr ⟨fits.weights, fits.narrow⟩]
    rfl

/-- A scale is not a multiple of 256, so that it does not make up for what an offset loses. -/
theorem scale_lost {scale : Int} (known : scale ∈ [1, 2, 4, 8]) (off : Int) :
    BitVec.ofInt 64 scale + BitVec.ofInt 64 (narrowed 8 off) ≠ BitVec.ofInt 64 off := by
  intro same
  rw [← BitVec.ofInt_add, X64.ofInt_eq_iff, narrowed] at same
  simp only [List.mem_cons, List.not_mem_nil, or_false] at known
  rcases known with rfl | rfl | rfl | rfl <;> omega

variable {label : String}

/-- What is left in the destination where R12 has the address. -/
theorem moved_value (moved : ¬(lastRegister none terms = none ∧ Term.offset terms = 0)) (c : Cpu) :
    (termsState place c dst (lastRegister none terms) (lastScale 1 terms) (Term.offset terms) (.address label)).reg dst =
      place label + affine (Term.weights (kept terms)) (BitVec.ofInt 64 (narrowed 8 (Term.offset terms)))
        (c.set .r12 (place label)).reg := by
  rw [← Term.kept_affine, ← BitVec.add_assoc]
  simp [termsState, if_neg moved]

theorem kept_apart (apart : lastRegister none terms ≠ some .r12) (k p : Word) (c : Cpu) :
    affine (Term.weights (kept terms)) k (c.set .r12 p).reg = affine (Term.weights (kept terms)) k c.reg := by
  rw [← Term.kept_affine, ← Term.kept_affine]
  cases last : lastRegister none terms with
  | none => rfl
  | some r =>
    have other : r ≠ .r12 := fun same => apart (by rw [last, same])
    simp [other]

theorem LeaFits.address (fits : LeaFits dst (.address label) terms) (c : Cpu) : Sums place c
    (termsState place c dst (lastRegister none terms) (lastScale 1 terms) (Term.offset terms) (.address label)) dst
      (.address label) terms := by
  have agree := (kept_iff terms).mpr ⟨fits.weights, fits.narrow⟩
  by_cases plain : lastRegister none terms = none ∧ Term.offset terms = 0
  · have state : termsState place c dst (lastRegister none terms) (lastScale 1 terms) (Term.offset terms) (.address label) =
        c.set dst (place label) := by rw [termsState, if_pos plain]
    rw [state]
    refine ⟨?_, fun r _ other => by simp [other]⟩
    rw [leaSum, Term.sum_value, fits.weights, plain.2]
    simp [kept, plain.1, Term.weights, affine, Operand.value]
  · obtain ⟨rfl, apart⟩ := (fits.datum label rfl).resolve_left plain
    refine ⟨?_, fun r _ other => by simp [termsState, if_neg plain, other]⟩
    rw [moved_value plain, kept_apart apart, agree, leaSum, Term.sum_value]
    rfl

theorem LeaFits.of_address (known : lastScale 1 terms ∈ [1, 2, 4, 8]) (placed : place label = 1) (sums : ∀ c, Sums place c
    (termsState place c dst (lastRegister none terms) (lastScale 1 terms) (Term.offset terms) (.address label)) dst
      (.address label) terms) : LeaFits dst (.address label) terms := by
  by_cases plain : lastRegister none terms = none ∧ Term.offset terms = 0
  · have agree := (kept_iff terms).mp fun v => by
      have same := (sums (withRegs v)).sum
      have state : termsState place (withRegs v) dst (lastRegister none terms) (lastScale 1 terms) (Term.offset terms)
          (.address label) = (withRegs v).set dst (place label) := by rw [termsState, if_pos plain]
      rw [state, leaSum, Term.sum_value, withRegs_reg] at same
      have zero : affine (Term.weights (kept terms)) (BitVec.ofInt 64 (narrowed 8 (Term.offset terms))) v = 0 := by
        rw [plain.2]
        simp [kept, plain.1, Term.weights, affine, narrowed]
      rw [zero]
      exact (show affine _ _ v = 0 by simpa [Operand.value] using same).symm
    exact ⟨agree.1, agree.2, fun _ _ => .inl plain⟩
  · have isR12 : dst = .r12 := by
      by_contra other
      have lost := (sums (withRegs 0)).others .r12 (by decide) (Ne.symm other)
      simp [termsState, if_neg plain, withRegs_reg, placed, Ne.symm other] at lost
    have sum (v : Reg → Word) := (sums (withRegs v)).sum
    simp only [moved_value plain, leaSum, Term.sum_value, withRegs_reg, Operand.value, add_right_inj] at sum
    have apart : lastRegister none terms ≠ some .r12 := by
      intro last
      have same (v : Reg → Word) : affine 0 (BitVec.ofInt 64 (lastScale 1 terms) +
          BitVec.ofInt 64 (narrowed 8 (Term.offset terms))) v =
            affine (Term.weights terms) (BitVec.ofInt 64 (Term.offset terms)) v := by
        have shown := sum v
        rw [← Term.kept_affine, last, Option.elim_some, X64.Cpu.set_reg, if_pos rfl, placed, one_mul] at shown
        rw [← shown]
        simp [affine]
      exact scale_lost known _ ((affine_inj _ _ _ _).mp same).2
    have agree := (kept_iff terms).mp fun v => by
      have shown := sum v
      rwa [kept_apart apart, withRegs_reg] at shown
    exact ⟨agree.1, agree.2, fun _ _ => .inr ⟨isR12, apart⟩⟩

end Sums

/-! ### Statements -/

section Statement

variable {x b : String} {index : Option Expr} {i : Option Reg} {scale off : Int} {dst : Reg} {base : Operand}

theorem termsCalls_link (based : leaBase b = .ok base) (notRsp : i ≠ some .rsp) (known : scale ∈ [1, 2, 4, 8]) :
    ((Assembler.empty false).run (termsCalls dst i scale off base) >>=
      fun a => a.link (a.labelOffsets ++ [(data b, 1)])).isOk = true := by
  have lea (d r : Reg) : ∃ bs, leaRegMem d r off i scale = .bytes bs := (spells_lea d r off notRsp known).imp fun _ both => both.1
  rcases leaBase_cases based with ⟨r, -, -, rfl⟩ | ⟨-, rfl⟩
  · obtain ⟨bs, isBytes⟩ := lea dst r
    rw [termsCalls, isBytes]
    rfl
  · obtain ⟨bs, isBytes⟩ := lea dst .r12
    rw [termsCalls, isBytes]
    split
    all_goals
      simp [Assembler.run, Assembler.perform, Assembler.empty, Call.encode, Call.fixup, Assembler.emit,
        Assembler.emitRel32Fixup, Assembler.link, Assembler.labelOffsets, Assembler.patchAll, Assembler.displacement,
        Dict.get?, s32, bind, Except.bind, Except.isOk, Except.toBool]

theorem termsCalls_labels (based : leaBase b = .ok base) (notRsp : i ≠ some .rsp) (known : scale ∈ [1, 2, 4, 8]) :
    Assembler.labelNames (termsCalls dst i scale off base) = [] := by
  have lea (d r : Reg) : ∃ bs, leaRegMem d r off i scale = .bytes bs := (spells_lea d r off notRsp known).imp fun _ both => both.1
  rcases leaBase_cases based with ⟨r, -, -, rfl⟩ | ⟨-, rfl⟩
  · obtain ⟨bs, isBytes⟩ := lea dst r
    rw [termsCalls, isBytes]
    rfl
  · obtain ⟨bs, isBytes⟩ := lea dst .r12
    rw [termsCalls, isBytes]
    split <;> rfl

theorem names_notRsp (names : Names index i) : i ≠ some .rsp := by
  cases names with
  | none => simp
  | @reg name r named =>
    rintro ⟨⟩
    exact ((user_iff _).mp (user_of_resolve named)).1 rfl

theorem lastScale_known {terms : List Term} (scaled : ∀ r s, .register r (some s) ∈ terms → Parse.Scale s) {s : Int}
    (known : s ∈ [1, 2, 4, 8]) : lastScale s terms ∈ [1, 2, 4, 8] := by
  induction terms generalizing s with
  | nil => exact known
  | cons term terms ih =>
    have later (r : Reg) (s : Int) (member : .register r (some s) ∈ terms) := scaled r s (List.mem_cons_of_mem _ member)
    cases term with
    | number n => exact ih later known
    | register r scale =>
      cases scale with
      | none => exact ih later known
      | some v =>
        refine ih later ?_
        rcases scaled r v List.mem_cons_self with rfl | rfl | rfl | rfl <;> simp

theorem leaRight_iff (g : CodeGenerator) {terms : List Term} (gathered : Gathered terms none 1 0 (index, scale, off)) :
    LeaRight g (.cpuLea x (baseExpr b) index scale off) x b terms ↔
      ∀ dst base, resolve x = .ok dst → leaBase b = .ok base → LeaFits dst base terms := by
  obtain ⟨names, scaleIs, offIs, scaled⟩ := gathered
  simp only [zero_add] at names scaleIs offIs
  subst scaleIs offIs
  have known := lastScale_known scaled (by simp : (1 : Int) ∈ [1, 2, 4, 8])
  have notRsp := names_notRsp names
  constructor
  · intro right dst base target based
    obtain ⟨L, M, loaded, -, stands, placed⟩ := exists_stands_data g
      (.cpuLea x (baseExpr b) index (lastScale 1 terms) (Term.offset terms)) .silent [(data b, 1)] _
      ⟨_, (cpuLea_ok names).mpr ⟨dst, base, target, based, rfl⟩, rfl⟩ (termsCalls_link based notRsp known)
    obtain ⟨dst', base', target', based', sums⟩ := right L M 0 _ loaded stands
    cases target.symm.trans target'
    cases based.symm.trans based'
    have state (c : Cpu) : Sums L.address c (termsState L.address c dst (lastRegister none terms) (lastScale 1 terms)
        (Term.offset terms) base) dst base terms := by
      obtain ⟨d, run, sum⟩ := sums c
      rwa [run.unique (termsCalls_completes loaded stands.here notRsp known c)] at sum
    rcases leaBase_cases based with ⟨r, -, -, rfl⟩ | ⟨-, rfl⟩
    · exact (sums_reg_iff r).mp state
    · have at_one : L.address (data b) = 1 := by
        rw [placed _ (by rw [termsCalls_labels based notRsp known]; simp)]
        simp [Dict.get?]
      exact .of_address known at_one state
  · intro fits L M i calls loaded stands
    obtain ⟨g', emission, script⟩ := stands.emission
    obtain ⟨dst, base, target, based, rfl⟩ := (cpuLea_ok names).mp emission
    obtain rfl := List.append_cancel_left script
    refine ⟨dst, base, target, based, fun c => ⟨_, termsCalls_completes loaded stands.here notRsp known c, ?_⟩⟩
    have fit := fits dst base target based
    rcases leaBase_cases based with ⟨r, -, -, rfl⟩ | ⟨-, rfl⟩
    · exact (sums_reg_iff r).mpr fit c
    · exact fit.address c

/-- Whatever address is read, it is a base and terms, and the statement computes their sum, from every
state and wherever it is loaded, just where the last register and its scale are all there is of
registers, the offset is a signed byte, and R12 is free for the address of a datum. -/
theorem lea_right_iff (g : CodeGenerator) {self : Parser} {toks more : List Tok}
    (read : Parse.cpuLea self toks = .ok (.cpuLea x (baseExpr b) index scale off, more)) :
    (∃ terms, LeaWritten self x b terms toks more) ∧ ∀ terms, LeaWritten self x b terms toks more →
      (LeaRight g (.cpuLea x (baseExpr b) index scale off) x b terms ↔
        ∀ dst base, resolve x = .ok dst → leaBase b = .ok base → LeaFits dst base terms) := by
  obtain ⟨terms, written, gathered⟩ := Parse.cpuLea_written read
  refine ⟨⟨terms, written⟩, fun terms' written' => ?_⟩
  rw [written'.unique written]
  exact leaRight_iff g gathered

end Statement

/-- The words of `reg1 = [reg2 + …]`. -/
def leaWords (terms : List (T × String)) : List Tok :=
  tokens ((.ident, "reg1") :: (.eq, "=") :: (.lbrack, "[") :: (.ident, "reg2") :: terms ++ [(.rbrack, "]"), (.eof, "")])

/-- `cpu:lea reg1 = [reg2 + reg3 * 8 + 16]` -/
theorem lea_right_iff_scaled : LeaRight (.new false) (.cpuLea "reg1" (baseExpr "reg2") (some (.reg "reg3")) 8 16) "reg1" "reg2"
    [.register .rcx (some 8), .number 16] := by
  have read : Parse.cpuLea ⟨"f", .ascii⟩ (leaWords [(.plus, "+"), (.ident, "reg3"), (.star, "*"), (.number, "8"), (.plus, "+"),
      (.number, "16")]) = .ok (.cpuLea "reg1" (baseExpr "reg2") (some (.reg "reg3")) 8 16, tokens [(.eof, "")]) := rfl
  refine (((lea_right_iff (.new false) read).2 _ (.mk rfl rfl rfl rfl rfl (.scaled rfl rfl (by decide) rfl rfl rfl
    (.number rfl rfl rfl (.done rfl))) rfl)).mpr fun dst base target based => ?_)
  cases (show resolve "reg1" = .ok .rax by decide).symm.trans target
  cases (show leaBase "reg2" = .ok (.reg .rbx) by decide).symm.trans based
  exact ⟨by rfl, by decide, by simp⟩

/-- `cpu:lea reg1 = [reg2 + reg3 + reg4]` leaves the third register out. -/
theorem lea_wrong : ¬∀ (g : CodeGenerator) (self : Parser) (toks more : List Tok) (x b : String) (index : Option Expr)
    (scale off : Int) (terms : List Term),
    Parse.cpuLea self toks = .ok (.cpuLea x (baseExpr b) index scale off, more) → LeaWritten self x b terms toks more →
      LeaRight g (.cpuLea x (baseExpr b) index scale off) x b terms := by
  intro all
  have right := all (.new false) ⟨"f", .ascii⟩ (leaWords [(.plus, "+"), (.ident, "reg3"), (.plus, "+"), (.ident, "reg4")])
    (tokens [(.eof, "")]) "reg1" "reg2" (some (.reg "reg4")) 1 0 [.register .rcx none, .register .rdx none] rfl
    (.mk rfl rfl rfl rfl rfl (.bare rfl rfl (by decide) rfl (.bare rfl rfl (by decide) rfl (.done rfl))) rfl)
  have gathered : Gathered [.register .rcx none, .register .rdx none] none 1 0 (some (.reg "reg4"), 1, 0) :=
    ⟨.reg (by decide), rfl, rfl, by simp⟩
  have fits := (leaRight_iff (.new false) gathered).mp right .rax (.reg .rbx) (by decide) (by decide)
  exact absurd (congrFun fits.weights .rcx) (by decide)

end Codegen

end Aclm
