import Aclm.Codegen.MemoryAccess
import Aclm.Codegen.Emit
import Aclm.Encoder.Addressing
import Aclm.Parser.Notation

/-! One notation for addresses: what the code of the statements that read it accesses. -/

set_option autoImplicit false

namespace Aclm

open X64 (Byte Reg Word Cpu Env Instr MemRef Spells Rex)

/-! ### The operand in the bytes -/

theorem X64.Spells.unique {bs : List Byte} {i j : Instr} (first : Spells bs [i]) (second : Spells bs [j]) : i = j := by
  have same := (first.decodeAll (le_refl _)).symm.trans (second.decodeAll (le_refl _))
  simpa using same

/-- The memory operand of an instruction. -/
def X64.Instr.memory : Instr → Option MemRef
  | .load _ _ m | .store _ m _ | .lea _ m => some m
  | _ => none

namespace Encoder

/-- The displacement that a signed byte holds. -/
def wrapped (disp : Int) : Int := (disp + 128) % 256 - 128

theorem narrowed_eq (disp : Int) : X64.narrowed 8 disp = wrapped disp := rfl

/-- `cpu:lea` without an index has room for a signed byte. -/
theorem spells_leaRegMem (dst base : Reg) (disp scale : Int) :
    ∃ bs, leaRegMem dst base disp none scale = .bytes bs ∧
      Spells bs [.lea dst ⟨some base, none, BitVec.ofInt 64 (wrapped disp)⟩] := by
  refine ⟨_, rfl, Spells.single (by simp) fun rest => ?_⟩
  have pfx := rex_eq true dst.high false base.high
  simp only [Bool.toNat_true, Bool.toNat_false] at pfx
  have read := takeRm_memSib8 dst.low_lt ⟨true, dst.high, false, base.high⟩ base disp rfl rfl rest
  simp only [shift_three, and_seven, pfx, List.cons_append, List.nil_append, decode_rex]
  simp [X64.decodeOp, X64.decodeRm, read, narrowed_eq]

end Encoder

/-! ### What is meant -/

namespace Parse.AddressForm

def meantIndex (r : Reg) : AddressForm → Option Reg
  | base | disp => none
  | _ => some r

def meantScale (s : Int) : AddressForm → Int
  | base | disp | index => 1
  | _ => s

def meantDisp (d : Int) : AddressForm → Int
  | base | index | scaled => 0
  | _ => d

end Parse.AddressForm

namespace Codegen

open Encoder
open Parse (AddressForm Spelled EndsStatement Scale Use baseExpr)

/-- The name is a register that a program can use, or a datum that no local hides. -/
def BaseNamed (g : CodeGenerator) (b : String) : Operand → Prop
  | .reg r => isRegName b = true ∧ resolve b = .ok r
  | .address label => isRegName b = false ∧ g.fnLocals.get? b = none ∧ g.dataLayout.contains b = true ∧ label = data b
  | _ => False

theorem BaseNamed.operand {g : CodeGenerator} {b : String} {base : Operand} (named : BaseNamed g b base) :
    baseOperand g (baseExpr b) = .ok base := by
  cases base with
  | reg r =>
    obtain ⟨reg, found⟩ := named
    rw [baseExpr, if_pos reg, baseOperand, found]
    rfl
  | address label =>
    obtain ⟨other, free, -, rfl⟩ := named
    rw [baseExpr, if_neg (by simp [other]), baseOperand, free]
  | _ => exact named.elim

/-- The other operand of a statement, where that is a register. -/
def UseNamed (g : CodeGenerator) (x : String) (r : Reg) : Use → Prop
  | .read _ | .write _ | .lea | .cmovmem => isRegName x = true ∧ resolve x = .ok r ∧ g.fnLocals.get? x = none
  | _ => True

/-- The address that a call accesses, or computes, in a state. -/
def Accesses (place : String → Word) (access : Call) (c : Cpu) (a : Word) : Prop :=
  (∃ dst label, access = .leaRegLabel dst label ∧ a = place label) ∨
  ∃ bs i m, access.encode false = .ok bs ∧ Spells bs [i] ∧ i.memory = some m ∧ a = c.address m

/-- What follows the access in the code of a statement. -/
def afterAccess : Use → List Call
  | .write _ => [.popReg .r12]
  | _ => []

/-- The code accesses the address that is meant, from whatever state it is entered in. -/
def Denotes (use : Use) (g g' : CodeGenerator) (base : Operand) (index : Option Reg) (scale off : Int) : Prop :=
  ∃ before access, g'.script = g.script ++ (before ++ access :: afterAccess use) ∧
    ∀ (env : Env) (place : String → Word) (c : Cpu), ∃ d, effects env place before c = some d ∧
      Accesses place access d (effective place c base index scale off)

/-- The uses that denote what is meant. -/
def Supported (use : Use) (form : AddressForm) (b : String) (base : Operand) (index : Option Reg) (other : Reg) (off : Int) :
    Prop :=
  match use with
  | .read _ => form ≠ .scaledDisp ∧ off < 2 ^ 31
  | .write _ => form ≠ .scaledDisp ∧ off < 2 ^ 31 ∧ (other = .r12 ∨ base ≠ .reg .r12 ∧ index ≠ some .r12)
  | .lea => lower b ∉ ["rip", "abs"] ∧ (off + 128) % 2 ^ 64 < 256
  | _ => False

/-! ### What is accessed -/

section Access

variable {place : String → Word} {c : Cpu} {a : Word}

theorem accesses_bytes {access : Call} {bs : List Byte} {i : Instr} {m : MemRef}
    (noLabel : ∀ dst label, access ≠ .leaRegLabel dst label) (ok : access.encode false = .ok bs) (spelled : Spells bs [i])
    (memory : i.memory = some m) : Accesses place access c a ↔ a = c.address m := by
  constructor
  · rintro (⟨dst, label, same, -⟩ | ⟨bs', j, m', ok', spelled', memory', rfl⟩)
    · exact absurd same (noLabel dst label)
    · obtain rfl := Except.ok.inj (ok.symm.trans ok')
      obtain rfl := spelled.unique spelled'
      rw [memory] at memory'
      cases memory'
      rfl
  · rintro rfl
    exact .inr ⟨bs, i, m, ok, spelled, memory, rfl⟩

theorem accesses_load {size : Size} {dst : Reg} {m : Mem} (scale : m.scale ∈ [1, 2, 4, 8]) (index : m.index ≠ some .rsp) :
    Accesses place (.load size dst m) c a ↔ (-2 ^ 31 ≤ m.disp ∧ m.disp < 2 ^ 31) ∧ a = m.at c := by
  rw [← encode_load_iff size dst scale]
  cases ok : (Call.load size dst m).encode false with
  | error e =>
    simp only [reduceCtorEq, exists_false, false_and, iff_false]
    rintro (⟨_, _, same, -⟩ | ⟨bs, _, _, ok', -⟩)
    · cases same
    · rw [ok] at ok'
      cases ok'
  | ok bs =>
    have spelled : Spells bs [.load size.bytes dst m.ref] := by
      simpa [Call.field, Call.fixup, Call.instrs] using
        Call.spells ok (show (Call.load size dst m).Modelled from index) (by decide : (-2 ^ 31 : Int) ≤ 0) (by decide)
    rw [accesses_bytes (fun _ _ => by simp) ok spelled rfl]
    simp [Mem.at]

theorem accesses_store {size : Size} {src : Reg} {m : Mem} (scale : m.scale ∈ [1, 2, 4, 8]) (index : m.index ≠ some .rsp) :
    Accesses place (.store size m src) c a ↔ (-2 ^ 31 ≤ m.disp ∧ m.disp < 2 ^ 31) ∧ a = m.at c := by
  rw [← encode_store_iff size src scale]
  cases ok : (Call.store size m src).encode false with
  | error e =>
    simp only [reduceCtorEq, exists_false, false_and, iff_false]
    rintro (⟨_, _, same, -⟩ | ⟨bs, _, _, ok', -⟩)
    · cases same
    · rw [ok] at ok'
      cases ok'
  | ok bs =>
    have spelled : Spells bs [.store size.bytes m.ref src] := by
      simpa [Call.field, Call.fixup, Call.instrs] using
        Call.spells ok (show (Call.store size m src).Modelled from index) (by decide : (-2 ^ 31 : Int) ≤ 0) (by decide)
    rw [accesses_bytes (fun _ _ => by simp) ok spelled rfl]
    simp [Mem.at]

theorem accesses_lea {dst base : Reg} {disp scale : Int} :
    Accesses place (leaRegMem dst base disp none scale) c a ↔ a = c.reg base + BitVec.ofInt 64 (wrapped disp) := by
  obtain ⟨bs, isBytes, spelled⟩ := spells_leaRegMem dst base disp scale
  rw [isBytes, accesses_bytes (fun _ _ => by simp) rfl spelled rfl]
  simp [Cpu.address]

end Access

/-! ### What is emitted -/

section Emission

variable {g g' : CodeGenerator} {b i x : String} {s d : Int} {base : Operand} {r ri : Reg} {form : AddressForm}

theorem read_eq (form : AddressForm) (apart : form ≠ .scaledDisp) (b i : String) (s d : Int) :
    form.read b i s d =
      ⟨baseExpr b, .number (form.meantDisp d), if form = .base ∨ form = .disp then none else some (.reg i), form.meantScale s⟩ := by
  cases form <;> first | rfl | exact absurd rfl apart

theorem meantIndex_operand (form : AddressForm) (indexed : resolve i = .ok ri) :
    indexOperand (if form = .base ∨ form = .disp then none else some (.reg i)) = .ok (form.meantIndex ri) := by
  cases form <;> simp [indexOperand, AddressForm.meantIndex, indexed, Except.map]

theorem isIndex (form : AddressForm) (i : String) : IsIndex (if form = .base ∨ form = .disp then none else some (.reg i)) := by
  cases form <;> simp [IsIndex]

/-- An offset with a register in it is none. -/
theorem scaledDisp_offset (g : CodeGenerator) (b i : String) (s d off : Int) :
    g.resolveOffset (AddressForm.scaledDisp.read b i s d).offset ≠ .ok off := by
  simp [AddressForm.read, CodeGenerator.resolveOffset, bind, Except.bind]

theorem baseOperand_withScript (g : CodeGenerator) (script : List Call) (node : Expr) :
    baseOperand (g.withScript script) node = baseOperand g node := by
  cases node <;> rfl

variable (based : baseOperand g (baseExpr b) = .ok base) (indexed : resolve i = .ok ri)
include based indexed

theorem memLoad_form (found : resolve x = .ok r) (free : g.fnLocals.get? x = none) (width : Size) :
    memLoad x (form.read b i s d).base (form.read b i s d).offset width (form.read b i s d).index (form.read b i s d).scale g =
        .ok () g' ↔
      form ≠ .scaledDisp ∧ g' = g.withScript (g.script ++
        loadCalls (.reg r) base (form.meantIndex ri) (form.meantScale s) (form.meantDisp d) width) := by
  by_cases apart : form = .scaledDisp
  · subst apart
    simp only [memLoad, baseReg_bind_ok, get_bind_ok, ofExcept_bind_ok, resolveOffset_withScript, ne_eq, not_true_eq_false,
      false_and, iff_false]
    rintro ⟨_, -, off, resolved, -⟩
    exact scaledDisp_offset g b i s d off resolved
  · rw [read_eq form apart]
    simp only [memLoad, baseReg_bind_ok, get_bind_ok, ofExcept_bind_ok, CodeGenerator.withScript_fnLocals, free, loadReg,
      reg_bind_ok, indexReg_bind_ok (isIndex form i), meantIndex_operand form indexed, asm_bind_ok, asm_ok, based, found,
      CodeGenerator.resolveOffset, Except.ok.injEq, exists_eq_left', ne_eq, apart, not_false_eq_true, true_and]
    simp [loadCalls, storeLocal, Operand.keepCalls, Operand.loadVia]

theorem memStore_form (found : resolve x = .ok r) (width : Size) :
    memStore (form.read b i s d).base (form.read b i s d).offset (.reg x) width (form.read b i s d).index
        (form.read b i s d).scale g = .ok () g' ↔
      form ≠ .scaledDisp ∧ g' = g.withScript (g.script ++
        storeCalls base (form.meantIndex ri) (form.meantScale s) (form.meantDisp d) width (.reg r)) := by
  have evaluated : evalCalls g (.reg x) .r12 = .ok ((Operand.reg r).mov .r12) :=
    evalCalls_leaf (show g.operand (.reg x) = .ok (.reg r) by rw [CodeGenerator.operand, found]; rfl) _
  by_cases apart : form = .scaledDisp
  · subst apart
    simp only [memStore, asm_bind_ok, eval_bind_ok, baseReg_bind_ok, get_bind_ok, ofExcept_bind_ok, resolveOffset_withScript,
      ne_eq, not_true_eq_false, false_and, iff_false]
    rintro ⟨_, -, _, -, off, resolved, -⟩
    exact scaledDisp_offset g b i s d off resolved
  · rw [read_eq form apart]
    simp only [memStore, asm_bind_ok, eval_bind_ok, baseReg_bind_ok, get_bind_ok, ofExcept_bind_ok,
      indexReg_bind_ok (isIndex form i), meantIndex_operand form indexed, asm_ok, evalCalls_withScript, evaluated, baseOperand_withScript, based,
      CodeGenerator.resolveOffset, Except.ok.injEq, exists_eq_left', ne_eq, apart, not_false_eq_true, true_and]
    simp [storeCalls]

end Emission

/-- The code of `cpu:lea` without an index. -/
def leaCalls (dst : Reg) (off : Int) : Operand → List Call
  | .reg r => [leaRegMem dst r off none 1]
  | .address label => if off = 0 then [.leaRegLabel dst label] else [.leaRegLabel .r12 label, leaRegMem dst .r12 off none 1]
  | _ => []

theorem cpuLea_form {g g' : CodeGenerator} {b x : String} {off : Int} {base : Operand} {r : Reg} (named : BaseNamed g b base)
    (found : resolve x = .ok r) :
    cpuLea x (baseExpr b) none 1 off g = .ok () g' ↔ g' = g.withScript (g.script ++ leaCalls r off base) := by
  cases base with
  | reg q =>
    obtain ⟨reg, resolved⟩ := named
    simp [baseExpr, if_pos reg, cpuLea, basePhys, indexReg, reg_bind_ok, asm_ok, found, resolved, leaCalls]
  | address label =>
    obtain ⟨other, -, -, rfl⟩ := named
    by_cases zero : off = 0
    · simp [baseExpr, other, cpuLea, reg_bind_ok, asm_ok, found, leaCalls, zero]
    · simp [baseExpr, other, cpuLea, basePhys, reg_bind_ok, asm_bind_ok, asm_ok, found, leaCalls, zero]
  | _ => exact named.elim

/-- The base that the rule for operands has swallowed is none. -/
theorem swallowed_fails {g g' : CodeGenerator} {x k b i : String} {s d : Int} {form : AddressForm} {use : Use}
    (swallows : use ∈ [.cmovmem, .cmpxchg16b, .load, .store, .vload, .vstore]) :
    emitOp (use.op x k b i s d form) g ≠ .ok () g' := by
  cases use with
  | read size => simp at swallows
  | write size => simp at swallows
  | lea => simp at swallows
  | cmovmem | cmpxchg16b | load | store | vload | vstore =>
    all_goals
      simp only [Use.op, emitOp, Parse.swallowed, baseReg, basePhys]
      exact fun emission => throw_bind_ok emission

/-! ### What is denoted -/

section Denoting

variable {g : CodeGenerator} {base : Operand} {index : Option Reg} {scale off : Int}

theorem denotes_iff {use : Use} (before : List Call) (access : Call) {calls : List Call}
    (shape : calls = before ++ access :: afterAccess use) :
    Denotes use g (g.withScript (g.script ++ calls)) base index scale off ↔
      ∀ (env : Env) (place : String → Word) (c : Cpu), ∃ d, effects env place before c = some d ∧
        Accesses place access d (effective place c base index scale off) := by
  subst shape
  constructor
  · rintro ⟨before', access', same, accesses⟩
    have calls := List.append_cancel_left same
    rw [← List.singleton_append, ← List.singleton_append (x := access'), ← List.append_assoc, ← List.append_assoc,
      List.append_cancel_right_eq, ← List.concat_eq_append, ← List.concat_eq_append, List.concat_inj] at calls
    obtain ⟨rfl, rfl⟩ := calls
    exact accesses
  · exact fun accesses => ⟨before, access, rfl, accesses⟩

theorem orOne_member (member : scale ∈ [1, 2, 4, 8]) : orOne scale ∈ [1, 2, 4, 8] := by
  simp only [List.mem_cons, List.not_mem_nil, or_false] at member
  rcases member with rfl | rfl | rfl | rfl <;> decide

/-- A one in R12 and zeros elsewhere show whether an address is made with the R12 of the program. -/
def markR12 : Cpu := ⟨fun r => if r = .r12 then 1 else 0, (Cpu.filled 0).flags, fun _ => 0, []⟩

theorem markR12_reg (r : Reg) : markR12.reg r = if r = .r12 then 1 else 0 := rfl

/-- Another value in R12 and the mark is gone. -/
theorem markR12_lost (imm : ∀ v, base ≠ .imm v) (local' : ∀ at_b, base ≠ .slot at_b) (user : ∀ r, base = .reg r → User r)
    {value : Reg} (other : value ≠ .r12) :
    (beforeStore (fun _ => 0) markR12 base (.reg value)).reg base.baseVia = 0 ∧
      ∀ r, User r → (beforeStore (fun _ => 0) markR12 base (.reg value)).reg r = 0 := by
  have early (r : Reg) (userR : User r) :
      ((markR12.push (markR12.reg .r12)).set .r12 ((Operand.reg value).value (fun _ => 0) markR12)).reg r = 0 := by
    have notSp := ((user_iff r).mp userR).1
    by_cases isR12 : r = .r12 <;> simp [isR12, Operand.value, markR12_reg, other, notSp]
  cases base with
  | imm v => exact absurd rfl (imm v)
  | slot at_b => exact absurd rfl (local' at_b)
  | reg q =>
    have ready : beforeStore (fun _ => 0) markR12 (.reg q) (.reg value) =
        (markR12.push (markR12.reg .r12)).set .r12 ((Operand.reg value).value (fun _ => 0) markR12) := Cpu.set_same _ q
    rw [ready]
    exact ⟨early q (user q rfl), early⟩
  | address label =>
    have notR11 {r : Reg} (userR : User r) : r ≠ .r11 := ((user_iff r).mp userR).2.2.1
    refine ⟨by simp [beforeStore, Operand.baseVia, Operand.value], fun r userR => ?_⟩
    rw [beforeStore, Cpu.set_reg, if_neg (show r ≠ (Operand.address label).baseVia from notR11 userR)]
    exact early r userR

theorem markR12_seen (local' : ∀ at_b, base ≠ .slot at_b) (imm : ∀ v, base ≠ .imm v) (member : scale ∈ [1, 2, 4, 8])
    (needs : base = .reg .r12 ∨ index = some .r12) :
    base.value (fun _ => 0) markR12 + (index.elim 0 fun i => markR12.reg i * BitVec.ofInt 64 scale) ≠ 0 := by
  have based : base.value (fun _ => 0) markR12 = if base = .reg .r12 then 1 else 0 := by
    cases base with
    | imm v => exact absurd rfl (imm v)
    | slot at_b => exact absurd rfl (local' at_b)
    | reg q => simp [Operand.value, markR12_reg]
    | address label => simp [Operand.value]
  have indexed : (index.elim 0 fun i => markR12.reg i * BitVec.ofInt 64 scale) =
      if index = some .r12 then BitVec.ofInt 64 scale else 0 := by
    cases index with
    | none => rfl
    | some i => simp [markR12_reg]
  rw [based, indexed]
  simp only [List.mem_cons, List.not_mem_nil, or_false] at member
  by_cases isBase : base = .reg .r12 <;> by_cases isIndex : index = some .r12 <;>
    rcases member with rfl | rfl | rfl | rfl <;> simp [isBase, isIndex] at needs ⊢

variable (imm : ∀ v, base ≠ .imm v) (local' : ∀ at_b, base ≠ .slot at_b) (user : ∀ r, base = .reg r → User r)
  (indexed : ∀ r, index = some r → User r) (member : scale ∈ [1, 2, 4, 8]) (nonneg : 0 ≤ off)
include imm local' user indexed member nonneg

theorem load_denotes (size : Option Size) (width : Size) (dst : Reg) :
    Denotes (.read size) g (g.withScript (g.script ++ loadCalls (.reg dst) base index scale off width)) base index scale off ↔
      off < 2 ^ 31 := by
  rw [denotes_iff base.baseCalls (.load width dst ⟨base.baseVia, off, index, orOne scale⟩) (by simp [loadCalls, afterAccess, Operand.keepCalls, Operand.loadVia])]
  have noSp : index ≠ some .rsp := fun same => absurd (indexed .rsp same) (by decide)
  have address (place : String → Word) (c : Cpu) : (⟨base.baseVia, off, index, orOne scale⟩ : Mem).at
      (c.set base.baseVia (base.value place c)) = effective place c base index scale off := by
    refine at_effective member off (by simp) fun i found => ?_
    by_cases same : i = base.baseVia
    · cases base with
      | imm v => exact absurd rfl (imm v)
      | reg s => rw [same]; simp [Operand.baseVia, Operand.value]
      | slot at_b => exact absurd rfl (local' at_b)
      | address label => exact absurd same ((user_iff i).mp (indexed i found)).2.2.1
    · simp [same]
  constructor
  · intro accesses
    obtain ⟨d, -, accessed⟩ := accesses .silent (fun _ => 0) (Cpu.filled 0)
    exact ((accesses_load (orOne_member member) noSp).mp accessed).1.2
  · intro fits env place c
    exact ⟨_, baseCalls_effects base imm c,
      (accesses_load (orOne_member member) noSp).mpr ⟨⟨by simp only; omega, fits⟩, (address place c).symm⟩⟩

/-- The value is brought to R12 before the address is used. -/
theorem store_denotes (size : Option Size) (width : Size) {value : Reg} (userV : User value) :
    Denotes (.write size) g (g.withScript (g.script ++ storeCalls base index scale off width (.reg value))) base index scale off ↔
      off < 2 ^ 31 ∧ (value = .r12 ∨ base ≠ .reg .r12 ∧ index ≠ some .r12) := by
  rw [denotes_iff ([.pushReg .r12] ++ (Operand.reg value).mov .r12 ++ base.baseCalls)
    (.store width ⟨base.baseVia, off, index, orOne scale⟩ .r12) (by simp [storeCalls, afterAccess])]
  have noSp : index ≠ some .rsp := fun same => absurd (indexed .rsp same) (by decide)
  have before (env : Env) (place : String → Word) (c : Cpu) :
      effects env place ([.pushReg .r12] ++ (Operand.reg value).mov .r12 ++ base.baseCalls) c =
        some (beforeStore place c base (.reg value)) := by
    simp only [effects_append, effects_cons, effect_pushReg, effects_nil, Option.bind_some, mov_effects,
      baseCalls_effects base imm]
    rw [value_after_push (show (Operand.reg value).Readable 8 c from userV)]
    rfl
  constructor
  · intro accesses
    obtain ⟨d, ran, accessed⟩ := accesses .silent (fun _ => 0) markR12
    obtain rfl := Option.some.inj ((before .silent (fun _ => 0) markR12).symm.trans ran)
    obtain ⟨⟨-, fits⟩, same⟩ := (accesses_store (orOne_member member) noSp).mp accessed
    refine ⟨fits, ?_⟩
    by_contra lost
    simp only [not_or, not_and_or, not_not] at lost
    obtain ⟨notR12, needs⟩ := lost
    obtain ⟨via, others⟩ := markR12_lost imm local' user notR12
    have indexZero : (index.elim 0 fun i =>
        (beforeStore (fun _ => 0) markR12 base (.reg value)).reg i * BitVec.ofInt 64 scale) = 0 := by
      cases index with
      | none => rfl
      | some i => rw [Option.elim_some, others i (indexed i rfl), zero_mul]
    rw [at_scaled member, via, effective, add_left_inj, indexZero, add_zero] at same
    exact markR12_seen local' imm member needs same
  · rintro ⟨fits, intact⟩ env place c
    have kept : StoreIntact base index (.reg value) := ⟨local', intact.imp (congrArg Operand.reg) id⟩
    obtain ⟨-, based, indexes, -⟩ := @beforeStore_intact place _ _ _ c imm user indexed kept
    refine ⟨_, before env place c, (accesses_store (orOne_member member) noSp).mpr ⟨⟨by simp only; omega, fits⟩, ?_⟩⟩
    exact (at_effective member off based indexes).symm

end Denoting

/-- A signed byte is the displacement exactly when it is its value in 64 bits. -/
theorem wrapped_iff (off : Int) : BitVec.ofInt 64 off = BitVec.ofInt 64 (wrapped off) ↔ (off + 128) % 2 ^ 64 < 256 := by
  constructor
  · intro same
    have remainders := congrArg BitVec.toInt same
    simp only [BitVec.toInt_ofInt, Int.bmod_def, wrapped] at remainders
    omega
  · intro fits
    refine BitVec.eq_of_toInt_eq ?_
    simp only [BitVec.toInt_ofInt, Int.bmod_def, wrapped]
    omega

theorem lea_denotes {g : CodeGenerator} {b : String} {base : Operand} (named : BaseNamed g b base) (dst : Reg) (off scale : Int) :
    Denotes .lea g (g.withScript (g.script ++ leaCalls dst off base)) base none scale off ↔ (off + 128) % 2 ^ 64 < 256 := by
  rw [← wrapped_iff]
  have meant (place : String → Word) (c : Cpu) : effective place c base none scale off =
      base.value place c + BitVec.ofInt 64 off := by simp [effective]
  cases base with
  | reg q =>
    rw [denotes_iff [] (leaRegMem dst q off none 1) (by simp [leaCalls, afterAccess])]
    simp only [effects_nil, Option.some.injEq, exists_eq_left', accesses_lea, meant, Operand.value, add_right_inj]
    exact ⟨fun all => all .silent (fun _ => 0) (Cpu.filled 0), fun fits _ _ _ => fits⟩
  | address label =>
    by_cases zero : off = 0
    · subst zero
      rw [denotes_iff [] (.leaRegLabel dst label) (by simp [leaCalls, afterAccess])]
      refine ⟨fun _ => rfl, fun _ env place c => ⟨c, rfl, .inl ⟨dst, label, rfl, ?_⟩⟩⟩
      simp [meant, Operand.value]
    · rw [denotes_iff [.leaRegLabel .r12 label] (leaRegMem dst .r12 off none 1) (by simp [leaCalls, afterAccess, zero])]
      simp only [accesses_lea, meant, Operand.value]
      constructor
      · intro all
        obtain ⟨d, ran, same⟩ := all .silent (fun _ => 0) (Cpu.filled 0)
        cases ran
        simpa using same
      · intro fits env place c
        exact ⟨c.set .r12 (place label), rfl, by simp [fits]⟩
  | _ => exact named.elim

/-- A statement with an address between brackets is read, compiled and denotes what is meant exactly when it is supported. -/
theorem address_notation {g : CodeGenerator} {self : Parser} {toks more : List Tok} {b i s d x k : String} {scale disp : Int}
    {base : Operand} {ri rx : Reg} (use : Use) {form : AddressForm} (documented : use.Documents form)
    (spelled : Spelled toks (use.words x k (form.words b i s d))) (ends : EndsStatement more) (named : BaseNamed g b base)
    (reg : isRegName i = true) (indexed : resolve i = .ok ri) (other : UseNamed g x rx use)
    (scaleIs : Text.int self.chars 0 s.toList = .ok scale) (known : Scale scale)
    (dispIs : Text.int self.chars 0 d.toList = .ok disp) (nonneg : 0 ≤ disp) :
    (∃ (op : Op) (line : Nat) (g' : CodeGenerator), Parse.statement self (toks ++ more) = .ok (.op line op, more) ∧
      emitOp op g = .ok () g' ∧
      Denotes use g g' base (form.meantIndex ri) (form.meantScale scale) (form.meantDisp disp)) ↔
      Supported use form b base (form.meantIndex ri) rx (form.meantDisp disp) := by
  have based := named.operand
  obtain ⟨imm, user⟩ := baseOperand_user based
  have noLocal (at_b : Int) : base ≠ .slot at_b := by
    rintro rfl
    exact named.elim
  have userIndex (r : Reg) (found : form.meantIndex ri = some r) : User r := by
    have isIndex : ri = r := by cases form <;> first | exact Option.some.inj found | cases found
    exact isIndex ▸ user_of_resolve indexed
  have member : form.meantScale scale ∈ [1, 2, 4, 8] := by
    have isOne : scale ∈ [1, 2, 4, 8] := by
      rcases known with rfl | rfl | rfl | rfl <;> decide
    cases form <;> first | exact isOne | exact show (1 : Int) ∈ [1, 2, 4, 8] by decide
  have positive : 0 ≤ form.meantDisp disp := by cases form <;> first | exact nonneg | exact le_refl _
  have isReg (size : Option Size) (write : use = .write size) : isRegName x = true := by
    subst write
    exact other.1
  -- What is read does not depend on the line.
  have onlyOp : (∃ (op : Op) (line : Nat) (g' : CodeGenerator),
      Parse.statement self (toks ++ more) = .ok (.op line op, more) ∧ emitOp op g = .ok () g' ∧
      Denotes use g g' base (form.meantIndex ri) (form.meantScale scale) (form.meantDisp disp)) ↔
      (use = .lea → lower b ∉ ["rip", "abs"]) ∧ ∃ g', emitOp (use.op x k b i scale disp form) g = .ok () g' ∧
        Denotes use g g' base (form.meantIndex ri) (form.meantScale scale) (form.meantDisp disp) := by
    have reads := use.statement_run documented spelled reg scaleIs known dispIs isReg ends
    constructor
    · rintro ⟨op, line, g', read, rest⟩
      obtain ⟨free, rfl⟩ := (reads op).mp ⟨line, read⟩
      exact ⟨free, g', rest⟩
    · rintro ⟨free, g', rest⟩
      obtain ⟨line, read⟩ := (reads _).mpr ⟨free, rfl⟩
      exact ⟨_, line, g', read, rest⟩
  rw [onlyOp]
  cases use with
  | read size =>
    obtain ⟨-, found, free⟩ := other
    simp only [Use.op, emitOp, memLoad_form based indexed found free, Supported]
    constructor
    · rintro ⟨-, g', ⟨apart, rfl⟩, denotes⟩
      exact ⟨apart, (load_denotes imm noLocal user userIndex member positive _ _ _).mp denotes⟩
    · rintro ⟨apart, fits⟩
      exact ⟨by simp, _, ⟨apart, rfl⟩, (load_denotes imm noLocal user userIndex member positive _ _ _).mpr fits⟩
  | write size =>
    obtain ⟨-, found, -⟩ := other
    simp only [Use.op, emitOp, memStore_form based indexed found, Supported]
    have denotes := @store_denotes g _ _ _ _ imm noLocal user userIndex member positive size (size.getD .b64) rx
      (user_of_resolve found)
    constructor
    · rintro ⟨-, g', ⟨apart, rfl⟩, denoted⟩
      exact ⟨apart, denotes.mp denoted⟩
    · rintro ⟨apart, fits⟩
      exact ⟨by simp, _, ⟨apart, rfl⟩, denotes.mpr fits⟩
  | lea =>
    obtain rfl : form = .disp := documented
    obtain ⟨-, found, -⟩ := other
    simp only [Use.op, emitOp, cpuLea_form named found, Supported, true_implies]
    constructor
    · rintro ⟨free, g', rfl, denoted⟩
      exact ⟨free, (lea_denotes named rx _ _).mp denoted⟩
    · rintro ⟨free, fits⟩
      exact ⟨free, _, rfl, (lea_denotes named rx _ _).mpr fits⟩
  | cmovmem | cmpxchg16b | load | store | vload | vstore =>
    all_goals
      simp only [Supported, iff_false]
      rintro ⟨-, g', emission, -⟩
      exact swallowed_fails (by simp) emission

/-- These words in a row, all in one place. -/
def tokens (words : List (T × String)) : List Tok := words.map fun w => ⟨w.1, w.2, 1, 1⟩

theorem tokens_spelled (words : List (T × String)) : Spelled (tokens words) words := by
  rw [Spelled, tokens, List.map_map]
  exact List.map_id words

theorem eight : Scale 8 := .inr (.inr (.inr rfl))

/-- `ram:read reg3 = [reg1+16+reg2*8]` -/
theorem address_notation_read : ∃ (op : Op) (line : Nat) (g' : CodeGenerator),
    Parse.statement ⟨"f", .ascii⟩ (tokens ((Use.read none).words "reg3" "" (AddressForm.dispScaled.words "reg1" "reg2" "8" "16")) ++
      [⟨.eof, "", 2, 1⟩]) = .ok (.op line op, [⟨.eof, "", 2, 1⟩]) ∧
    emitOp op (.new false) = .ok () g' ∧ Denotes (.read none) (.new false) g' (.reg .rax) (some .rbx) 8 16 := by
  have base : BaseNamed (.new false) "reg1" (.reg .rax) := ⟨by decide, by decide⟩
  have target : UseNamed (.new false) "reg3" .rcx (.read none) := ⟨by decide, by decide, rfl⟩
  have documented : Use.Documents (.read none) .dispScaled := trivial
  exact ( address_notation (.read none) documented (tokens_spelled _) ⟨_, [], rfl, .inr rfl⟩ base (by decide)
    (show resolve "reg2" = .ok .rbx by decide) target (show _ = Except.ok 8 by rfl) eight (show _ = Except.ok 16 by rfl)
    (by decide)).mpr ⟨by decide, by decide⟩

/-- `ram:read reg3 = [reg1+reg2*8+16]` is read, and refused by the generator. -/
theorem address_notation_refused : ¬∀ (g : CodeGenerator) (self : Parser) (toks more : List Tok) (b i s d x k : String)
    (scale disp : Int) (base : Operand) (ri rx : Reg) (use : Use) (form : AddressForm), use.Documents form →
    Spelled toks (use.words x k (form.words b i s d)) → EndsStatement more → BaseNamed g b base → isRegName i = true →
    resolve i = .ok ri → UseNamed g x rx use → Text.int self.chars 0 s.toList = .ok scale → Scale scale →
    Text.int self.chars 0 d.toList = .ok disp → 0 ≤ disp →
    ∃ (op : Op) (line : Nat) (g' : CodeGenerator), Parse.statement self (toks ++ more) = .ok (.op line op, more) ∧
      emitOp op g = .ok () g' ∧
      Denotes use g g' base (form.meantIndex ri) (form.meantScale scale) (form.meantDisp disp) := by
  intro all
  obtain ⟨op, line, g', read, emission, -⟩ := all (.new false) ⟨"f", .ascii⟩
    (tokens ((Use.read none).words "reg3" "" (AddressForm.scaledDisp.words "reg1" "reg2" "8" "16")))
    [⟨.eof, "", 2, 1⟩] "reg1" "reg2" "8" "16" "reg3" "" 8 16 (.reg .rax) .rbx .rcx (.read none) .scaledDisp trivial
    (tokens_spelled _) ⟨_, [], rfl, .inr rfl⟩ ⟨by decide, by decide⟩ (by decide) (by decide)
    ⟨by decide, by decide, rfl⟩ rfl eight rfl (by decide)
  have isLoad : op = .memLoad "reg3" (.reg "reg1") (.binExpr .add (.binExpr .mul (.reg "reg2") (.number 8)) (.number 16))
      .b64 none 1 := by
    cases (rfl : Parse.statement _ _ = _).symm.trans read
    rfl
  subst isLoad
  cases emission

end Codegen

end Aclm
