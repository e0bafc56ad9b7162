import Aclm.Codegen.Arguments

/-! Loads and stores: the address and the value they use, and when these are the ones at entry. -/

set_option autoImplicit false

namespace Aclm.Codegen

open X64 (Word Reg Cpu Env Machine Memory)
open X64.Memory (SameAbove WordAbove RangeAbove)
open Encoder

/-! ### The code -/

/-- What the base of an address refers to. -/
def baseOperand (g : CodeGenerator) : Expr → Except PyErr Operand
  | .reg name => (resolve name).map .reg
  | .ident name =>
    match g.fnLocals.get? name with
    | some off => .ok (.slot off)
    | none => .ok (.address (data name))
  | _ => .error (.codegenError "bad memory base")

/-- The register that holds the base, and the code that brings it there. -/
def Operand.baseVia : Operand → Reg
  | reg r => r
  | slot _ => .r13
  | _ => .r11

def Operand.baseCalls : Operand → List Call
  | slot off => [movRegMem .r13 .rbp off none 1]
  | address label => [.leaRegLabel .r11 label]
  | _ => []

theorem baseReg_bind_ok {g g' : CodeGenerator} {node : Expr} {f : Reg → Gen Unit} :
    (baseReg node >>= f) g = .ok () g' ↔
      ∃ o, baseOperand g node = .ok o ∧ f o.baseVia (g.withScript (g.script ++ o.baseCalls)) = .ok () g' := by
  cases node with
  | reg name =>
    simp only [baseReg, reg_bind_ok, baseOperand]
    constructor
    · rintro ⟨r, found, rest⟩
      exact ⟨.reg r, by rw [found]; rfl, by simpa [Operand.baseCalls, Operand.baseVia] using rest⟩
    · rintro ⟨o, found, rest⟩
      cases result : resolve name with
      | error e => rw [result] at found; cases found
      | ok r =>
        rw [result] at found
        cases found
        exact ⟨r, rfl, by simpa [Operand.baseCalls, Operand.baseVia] using rest⟩
  | ident name =>
    simp only [baseReg, bind_assoc, get_bind_ok, baseOperand]
    cases g.fnLocals.get? name with
    | some off => simp [asm_bind_ok, Operand.baseCalls, Operand.baseVia]
    | none => simp [asm_bind_ok, Operand.baseCalls, Operand.baseVia]
  | _ =>
    simp only [baseReg, baseOperand, reduceCtorEq, false_and, exists_false, iff_false]
    exact throw_bind_ok

/-- The index of an address, where it is a register. -/
def indexOperand : Option Expr → Except PyErr (Option Reg)
  | none => .ok none
  | some (.reg name) => (resolve name).map some
  | some node => .error (.codegenError s!"no register {node.typeName}")

def IsIndex : Option Expr → Prop
  | none | some (.reg _) => True
  | _ => False

theorem indexReg_bind_ok {g g' : CodeGenerator} {index : Option Expr} (register : IsIndex index) {f : Option Reg → Gen Unit} :
    (indexReg index >>= f) g = .ok () g' ↔ ∃ i, indexOperand index = .ok i ∧ f i g = .ok () g' := by
  cases index with
  | none => simp [indexReg, indexOperand]
  | some node =>
    cases node with
    | reg name =>
      simp only [indexReg, bind_assoc, reg_bind_ok, indexOperand, pure_bind]
      cases resolve name with
      | error e => simp [Except.map]
      | ok r => simp [Except.map]
    | _ => exact register.elim

theorem indexOperand_user {index : Option Expr} {r : Reg} (found : indexOperand index = .ok (some r)) : User r := by
  cases index with
  | none => cases found
  | some node =>
    cases node with
    | reg name =>
      cases result : resolve name with
      | error e => simp [indexOperand, result, Except.map] at found
      | ok s =>
        simp only [indexOperand, result, Except.map, Except.ok.injEq, Option.some.injEq] at found
        exact found ▸ user_of_resolve result
    | _ => cases found

/-! ### What it should do -/

section Meaning

variable (place : String → Word) (c : Cpu)

/-- `base + index * scale + offset` from the values that the registers and the memory have. -/
def effective (base : Operand) (index : Option Reg) (scale off : Int) : Word :=
  base.value place c + (index.elim 0 fun i => c.reg i * BitVec.ofInt 64 scale) + BitVec.ofInt 64 off

/-- The low bytes of the value stand at the address, and nothing else at or above the stack pointer has changed. -/
structure StoreRight (base : Operand) (index : Option Reg) (scale off : Int) (width : Size) (value : Operand)
    (d : Cpu) : Prop where
  mem : SameAbove (c.reg .rsp) 8
    (c.mem.store (effective place c base index scale off) width.bytes (value.value place c)) d.mem
  regs : ∀ r, User r → d.reg r = c.reg r
  sp : d.reg .rsp = c.reg .rsp

/-- The destination has the bytes at the address, and no other register that a program can name has changed. -/
structure LoadRight (dest base : Operand) (index : Option Reg) (scale off : Int) (width : Size) (d : Cpu) : Prop where
  value : dest.value place d = c.mem.load (effective place c base index scale off) width.bytes
  regs : ∀ r, User r → dest ≠ .reg r → d.reg r = c.reg r

end Meaning

theorem scaled {scale : Int} (member : scale ∈ [1, 2, 4, 8]) (v : Word) :
    v <<< scaleLog scale = v * BitVec.ofInt 64 scale := by
  have power : BitVec.twoPow 64 (scaleLog scale) = BitVec.ofInt 64 scale := by
    simp only [List.mem_cons, List.not_mem_nil, or_false] at member
    rcases member with rfl | rfl | rfl | rfl <;> rfl
  rw [BitVec.shiftLeft_eq_mul_twoPow, power]

theorem at_scaled {d : Cpu} {via : Reg} {index : Option Reg} {scale : Int} (member : scale ∈ [1, 2, 4, 8]) (off : Int) :
    (⟨via, off, index, orOne scale⟩ : Mem).at d =
      d.reg via + (index.elim 0 fun i => d.reg i * BitVec.ofInt 64 scale) + BitVec.ofInt 64 off := by
  have notZero : orOne scale = scale := by
    rw [orOne, if_neg]
    rintro rfl
    exact absurd member (by decide)
  cases index with
  | none => simp [Mem.at, Mem.ref, Cpu.address]
  | some i => simp [Mem.at, Mem.ref, Cpu.address, notZero, scaled member]

theorem at_effective {place : String → Word} {c d : Cpu} {base : Operand} {via : Reg} {index : Option Reg} {scale : Int}
    (member : scale ∈ [1, 2, 4, 8]) (off : Int) (based : d.reg via = base.value place c)
    (indexed : ∀ i, index = some i → d.reg i = c.reg i) :
    (⟨via, off, index, orOne scale⟩ : Mem).at d = effective place c base index scale off := by
  rw [at_scaled member, effective, based]
  cases index with
  | none => rfl
  | some i => simp only [Option.elim_some, indexed i rfl]

theorem resolveOffset_withScript (g : CodeGenerator) (s : List Call) (node : Expr) :
    (g.withScript s).resolveOffset node = g.resolveOffset node := by
  induction node with
  | binExpr op left right ihl ihr => simp only [CodeGenerator.resolveOffset, ihl, ihr]
  | _ => rfl

/-! ### Stores -/

def storeCalls (base : Operand) (index : Option Reg) (scale off : Int) (width : Size) (value : Operand) : List Call :=
  [.pushReg .r12] ++ value.mov .r12 ++ base.baseCalls ++
    [.store width ⟨base.baseVia, off, index, orOne scale⟩ .r12, .popReg .r12]

theorem memStore_ok {base offset value : Expr} {width : Size} {index : Option Expr} {scale : Int} (leaf : value.IsLeaf)
    (register : IsIndex index) {g g' : CodeGenerator} (emission : memStore base offset value width index scale g = .ok () g') :
    ∃ b v i off, baseOperand g base = .ok b ∧ g.operand value = .ok v ∧ indexOperand index = .ok i ∧
      g.resolveOffset offset = .ok off ∧ g' = g.withScript (g.script ++ storeCalls b i scale off width v) := by
  simp only [memStore, asm_bind_ok, eval_bind_ok, baseReg_bind_ok, get_bind_ok, ofExcept_bind_ok,
    indexReg_bind_ok register, asm_ok, evalCalls_withScript, resolveOffset_withScript] at emission
  obtain ⟨calls, evaluated, b, based, off, resolved, i, indexed, rfl⟩ := emission
  obtain ⟨v, found⟩ := operand_of_evalCalls leaf evaluated
  rw [evalCalls_leaf found] at evaluated
  cases evaluated
  exact ⟨b, v, i, off, based, found, indexed, resolved, by simp [storeCalls]⟩

section Execution

variable {env : Env} {place : String → Word}

theorem baseCalls_effects (base : Operand) (imm : ∀ v, base ≠ .imm v) (c : Cpu) :
    effects env place base.baseCalls c = some (c.set base.baseVia (base.value place c)) := by
  cases base with
  | imm v => exact absurd rfl (imm v)
  | reg r => simp [Operand.baseCalls, Operand.baseVia, Operand.value, Cpu.set_same]
  | slot off => simp [Operand.baseCalls, Operand.baseVia, Operand.value]
  | address label => rfl

/-- The state at the store instruction. -/
def beforeStore (place : String → Word) (c : Cpu) (base value : Operand) : Cpu :=
  let c := (c.push (c.reg .r12)).set .r12 (value.value place c)
  c.set base.baseVia (base.value place c)

/-- The value is read as it was: pushing R12 is all that has been done before. -/
theorem value_after_push {value : Operand} {c : Cpu} (readable : value.Readable 8 c) :
    value.value place (c.push (c.reg .r12)) = value.value place c := by
  cases value with
  | imm v => rfl
  | address label => rfl
  | reg r => simp [Operand.value, ((user_iff r).mp readable).1]
  | slot off =>
    simp only [Operand.value, X64.Cpu.push_reg, reduceCtorEq, if_false, X64.Cpu.push_mem]
    exact (SameAbove.store_below (p := c.reg .rsp) _).load readable

theorem storeCalls_effects {base value : Operand} {index : Option Reg} {scale off : Int} {width : Size} {c : Cpu}
    (imm : ∀ v, base ≠ .imm v) (notSp : base ≠ .reg .rsp) (indexed : index ≠ some .rsp) (readable : value.Readable 8 c) :
    ∃ d, effects env place (storeCalls base index scale off width value) c = some d ∧
      d.mem = (c.push (c.reg .r12)).mem.store
        ((⟨base.baseVia, off, index, orOne scale⟩ : Mem).at (beforeStore place c base value)) width.bytes
        ((beforeStore place c base value).reg .r12) ∧
      d.reg .rsp = c.reg .rsp ∧ d.reg .r12 = d.mem.load (c.reg .rsp - 8) 8 ∧
      ∀ r, r ≠ .rsp → r ≠ .r12 → d.reg r = (beforeStore place c base value).reg r := by
  have via : Reg.rsp ≠ base.baseVia := by
    cases base with
    | reg r => exact fun same => notSp (same ▸ rfl)
    | _ => exact Reg.noConfusion
  generalize ready : beforeStore place c base value = m
  have sp : m.reg .rsp = c.reg .rsp - 8 := by simp [← ready, beforeStore, via]
  have mem : m.mem = (c.push (c.reg .r12)).mem := by simp [← ready, beforeStore]
  generalize stored : m.mem.store ((⟨base.baseVia, off, index, orOne scale⟩ : Mem).at m) width.bytes (m.reg .r12) = mem'
  refine ⟨((m.setMem mem').pop.2).set .r12 (m.setMem mem').pop.1, ?_, ?_, ?_, ?_, fun r h₁ h₂ => ?_⟩
  · simp only [storeCalls, effects_append, effects_cons, effect_pushReg, effects_nil, Option.bind_some, mov_effects,
      value_after_push readable, baseCalls_effects base imm]
    simp only [beforeStore] at ready
    rw [ready, effect_store _ _ _ _ ⟨_, _, _, _⟩ _ indexed, stored]
    rfl
  · simp [← stored, mem]
  · simp only [X64.Cpu.set_reg, reduceCtorEq, if_false, X64.Cpu.pop_snd, if_true, X64.Cpu.setMem_reg, sp]
    bv_omega
  · simp [sp]
  · simp [h₁, h₂]

/-- The base is not a local, which would be loaded into R13, and the address does not need R12, or R12 holds the
value to store anyway. -/
def StoreIntact (base : Operand) (index : Option Reg) (value : Operand) : Prop :=
  (∀ off, base ≠ .slot off) ∧ (value = .reg .r12 ∨ base ≠ .reg .r12 ∧ index ≠ some .r12)

theorem beforeStore_intact {base value : Operand} {index : Option Reg} {c : Cpu} (imm : ∀ v, base ≠ .imm v)
    (user : ∀ r, base = .reg r → User r) (indexed : ∀ r, index = some r → User r)
    (intact : StoreIntact base index value) :
    (beforeStore place c base value).reg .r12 = value.value place c ∧
      (beforeStore place c base value).reg base.baseVia = base.value place c ∧
      (∀ i, index = some i → (beforeStore place c base value).reg i = c.reg i) ∧
      ∀ r, User r → r ≠ .r12 → (beforeStore place c base value).reg r = c.reg r := by
  obtain ⟨noLocal, apart⟩ := intact
  have late (r : Reg) (userR : User r) (needed : r = .r12 → value = .reg .r12) :
      ((c.push (c.reg .r12)).set .r12 (value.value place c)).reg r = c.reg r := by
    by_cases isR12 : r = .r12
    · subst isR12
      simp [needed rfl, Operand.value]
    · simp [isR12, ((user_iff r).mp userR).1]
  have index_late (i : Reg) (found : index = some i) :
      ((c.push (c.reg .r12)).set .r12 (value.value place c)).reg i = c.reg i :=
    late i (indexed i found) fun same => apart.resolve_right fun needs => needs.2 (same ▸ found)
  cases base with
  | imm v => exact absurd rfl (imm v)
  | slot off => exact absurd rfl (noLocal off)
  | reg r =>
    have ready : beforeStore place c (.reg r) value = (c.push (c.reg .r12)).set .r12 (value.value place c) :=
      Cpu.set_same _ r
    rw [ready]
    refine ⟨by simp, ?_, index_late, fun s userS other => late s userS fun same => absurd same other⟩
    exact late r (user r rfl) fun same => apart.resolve_right fun needs => needs.1 (same ▸ rfl)
  | address label =>
    have notR11 {s : Reg} (userS : User s) : s ≠ .r11 := ((user_iff s).mp userS).2.2.1
    refine ⟨by simp [beforeStore, Operand.baseVia], by simp [beforeStore, Operand.baseVia, Operand.value],
      fun i found => ?_, fun s userS other => ?_⟩
    · simpa [beforeStore, Operand.baseVia, notR11 (indexed i found)] using index_late i found
    · simpa [beforeStore, Operand.baseVia, notR11 userS] using late s userS fun same => absurd same other

theorem store_right {base value : Operand} {index : Option Reg} {scale off : Int} {width : Size} {c d : Cpu}
    (member : scale ∈ [1, 2, 4, 8]) (imm : ∀ v, base ≠ .imm v) (user : ∀ r, base = .reg r → User r)
    (indexed : ∀ r, index = some r → User r) (intact : StoreIntact base index value)
    (clear : RangeAbove (c.reg .rsp) 8 (effective place c base index scale off) width.bytes)
    (mem : d.mem = (c.push (c.reg .r12)).mem.store
      ((⟨base.baseVia, off, index, orOne scale⟩ : Mem).at (beforeStore place c base value)) width.bytes
      ((beforeStore place c base value).reg .r12)) (sp : d.reg .rsp = c.reg .rsp)
    (r12 : d.reg .r12 = d.mem.load (c.reg .rsp - 8) 8)
    (others : ∀ r, r ≠ .rsp → r ≠ .r12 → d.reg r = (beforeStore place c base value).reg r) :
    StoreRight place c base index scale off width value d := by
  obtain ⟨late, based, indexes, kept⟩ := @beforeStore_intact place _ _ _ c imm user indexed intact
  rw [at_effective member off based indexes, late] at mem
  refine ⟨?_, fun r userR => ?_, sp⟩
  · rw [mem]
    exact (SameAbove.store_below _).store _ _ _
  · by_cases isR12 : r = .r12
    · have saved := X64.Memory.load_store_of_above (m := (c.push (c.reg .r12)).mem) (v := value.value place c) clear
      rw [isR12, r12, mem]
      exact saved.trans (X64.Memory.load_store_word _ _ _)
    · rw [others r ((user_iff r).mp userR).1 isR12, kept r userR isR12]

end Execution

/-! ### States in which a store goes wrong -/

/-- The frame and the stack pointer may be anywhere, whatever the other registers hold. -/
def probe (f : Reg → Word) (sp frame : Word) (mem : Memory) : Cpu :=
  { Cpu.filled 0 with reg := fun r => if r = .rsp then sp else if r = .rbp then frame else f r, mem := mem }

theorem probe_user {f : Reg → Word} {sp frame : Word} {mem : Memory} {r : Reg} (user : User r) :
    (probe f sp frame mem).reg r = f r := by
  obtain ⟨notSp, notFrame, -, -⟩ := (user_iff r).mp user
  simp [probe, notSp, notFrame]

theorem leValue_zeros (n : Nat) : X64.leValue (List.replicate n 0) = 0 := by
  induction n with
  | zero => rfl
  | succ n ih =>
    rw [List.replicate_succ, X64.leValue, ih]
    rfl

theorem load_zeros {m : Memory} {a : Word} {n : Nat} (zeros : ∀ i < n, m (a + BitVec.ofNat 64 i) = 0) : m.load a n = 0 := by
  have bytes : m.bytes a n = List.replicate n 0 := by
    rw [Memory.bytes, List.map_congr_left (fun i member => zeros i (List.mem_range.mp member)), List.map_const',
      List.length_range]
  rw [Memory.load, bytes, leValue_zeros]
  rfl

theorem store_zeros (a : Word) : Memory.store (fun _ => 0) a 8 0 = fun _ => 0 := by
  funext x
  have zeros : X64.leBytes 8 (0 : Word).toNat = List.replicate 8 0 := by decide
  rw [Memory.store, X64.Memory.write, zeros, List.getElem?_replicate]
  split <;> rfl

/-- The frame in which a local stands at the address `a`. -/
def Operand.frameFor (a : Word) : Operand → Word
  | slot off => a - BitVec.ofInt 64 off
  | _ => 0

theorem readable_probe {value : Operand} (user : ∀ r, value = .reg r → User r) {f : Reg → Word} {sp a : Word}
    {mem : Memory} (above : WordAbove sp 8 a) : value.Readable 8 (probe f sp (value.frameFor a) mem) := by
  cases value with
  | imm v => trivial
  | address label => trivial
  | reg r => exact user r rfl
  | slot off =>
    have back : a - BitVec.ofInt 64 off + BitVec.ofInt 64 off = a := BitVec.sub_add_cancel _ _
    simpa [Operand.Readable, probe, Operand.frameFor, back] using above

/-- A base that is a local costs R13 its value. -/
theorem store_wrong_local {place : String → Word} {value : Operand} {slot scale off : Int} {index : Option Reg}
    {width : Size} (userV : ∀ r, value = .reg r → User r) (indexed : ∀ r, index = some r → User r) :
    ∃ c : Cpu, value.Readable 8 c ∧
      RangeAbove (c.reg .rsp) 8 (effective place c (.slot slot) index scale off) width.bytes ∧
      (beforeStore place c (.slot slot) value).reg .r13 ≠ c.reg .r13 := by
  let f : Reg → Word := fun r => if r = .r13 then 1 else 0
  let target : Word := (index.elim 0 fun i => f i * BitVec.ofInt 64 scale) + BitVec.ofInt 64 off
  let frame := value.frameFor target
  refine ⟨probe f (target + 0x4000000000000000) frame fun _ => 0, readable_probe userV ?_, ?_, ?_⟩
  · simp only [WordAbove]
    bv_omega
  · have address : effective place (probe f (target + 0x4000000000000000) frame fun _ => 0) (.slot slot) index scale off =
        target := by
      have base : (Operand.slot slot).value place (probe f (target + 0x4000000000000000) frame fun _ => 0) = 0 :=
        load_zeros fun _ _ => rfl
      rw [effective, base, zero_add]
      cases index with
      | none => rfl
      | some i => simp only [Option.elim_some, probe_user (indexed i rfl), target]
    rw [address]
    have bound : width.bytes ≤ 8 := by cases width <;> decide
    simp only [RangeAbove, probe, if_true]
    bv_omega
  · have r13 : (beforeStore place (probe f (target + 0x4000000000000000) frame fun _ => 0) (.slot slot) value).reg .r13 =
        0 := by
      have zeros := store_zeros (target + 0x4000000000000000 - 8)
      simp only [beforeStore, Operand.baseVia, Operand.value, X64.Cpu.set_reg, if_true, X64.Cpu.set_mem, X64.Cpu.push_mem]
      exact load_zeros fun i small => congrFun zeros _
    rw [r13]
    change (0 : Word) ≠ 1
    decide

theorem effective_probe {place : String → Word} {f : Reg → Word} {base : Operand} {index : Option Reg} {scale off : Int}
    (noLocal : ∀ slot, base ≠ .slot slot) (user : ∀ r, base = .reg r → User r) (indexed : ∀ r, index = some r → User r)
    {d : Cpu} (same : ∀ r, User r → d.reg r = f r) :
    effective place d base index scale off = effective place (probe f 0 0 fun _ => 0) base index scale off := by
  have based : base.value place d = base.value place (probe f 0 0 fun _ => 0) := by
    cases base with
    | slot slot => exact absurd rfl (noLocal slot)
    | reg r => exact (same r (user r rfl)).trans (probe_user (user r rfl)).symm
    | _ => rfl
  rw [effective, effective, based]
  cases index with
  | none => rfl
  | some i => simp only [Option.elim_some, same i (indexed i rfl), probe_user (indexed i rfl)]

/-- Every register zero but R12. -/
def onlyR12 (v : Word) : Reg → Word := fun r => if r = .r12 then v else 0

/-- An address that needs R12 is somewhere else when R12 is 64 more. -/
theorem effective_far {place : String → Word} {base : Operand} {index : Option Reg} {scale off : Int} {v : Word}
    (member : scale ∈ [1, 2, 4, 8]) (noLocal : ∀ slot, base ≠ .slot slot) (user : ∀ r, base = .reg r → User r)
    (indexed : ∀ r, index = some r → User r) (needs : base = .reg .r12 ∨ index = some .r12) :
    8 ≤ (effective place (probe (onlyR12 (v + 64)) 0 0 fun _ => 0) base index scale off -
      effective place (probe (onlyR12 v) 0 0 fun _ => 0) base index scale off).toNat := by
  have based (w : Word) : base.value place (probe (onlyR12 w) 0 0 fun _ => 0) =
      if base = .reg .r12 then w else base.value place (probe (onlyR12 0) 0 0 fun _ => 0) := by
    cases base with
    | slot slot => exact absurd rfl (noLocal slot)
    | reg r =>
      by_cases isR12 : r = .r12
      · subst isR12
        rfl
      · simp [Operand.value, probe_user (user r rfl), onlyR12, isR12]
    | _ => rfl
  have scaledIndex (w : Word) : (index.elim 0 fun i => (probe (onlyR12 w) 0 0 fun _ => 0).reg i * BitVec.ofInt 64 scale) =
      if index = some .r12 then w * BitVec.ofInt 64 scale else 0 := by
    cases index with
    | none => rfl
    | some i =>
      by_cases isR12 : i = .r12
      · subst isR12
        rfl
      · simp [probe_user (indexed i rfl), onlyR12, isR12]
  rw [effective, effective, based (v + 64), based v, scaledIndex (v + 64), scaledIndex v]
  generalize base.value place (probe (onlyR12 0) 0 0 fun _ => 0) = b
  generalize BitVec.ofInt 64 off = o
  have factor : BitVec.ofInt 64 scale ∈ [(1 : Word), 2, 4, 8] := by
    simp only [List.mem_cons, List.not_mem_nil, or_false] at member ⊢
    rcases member with rfl | rfl | rfl | rfl <;> simp
  generalize BitVec.ofInt 64 scale = s at factor ⊢
  -- The difference is 64 times the number of times R12 counts.
  have difference : ∃ k ∈ [(1 : Word), 2, 4, 8, 3, 5, 9],
      (if base = .reg .r12 then v + 64 else b) + (if index = some .r12 then (v + 64) * s else 0) + o -
        ((if base = .reg .r12 then v else b) + (if index = some .r12 then v * s else 0) + o) = 64 * k := by
    simp only [List.mem_cons, List.not_mem_nil, or_false] at factor
    by_cases inBase : base = .reg .r12
    · by_cases inIndex : index = some .r12
      · refine ⟨1 + s, ?_, ?_⟩
        · rcases factor with rfl | rfl | rfl | rfl <;> decide
        · simp only [inBase, inIndex, if_true]
          ring
      · refine ⟨1, by decide, ?_⟩
        simp only [inBase, inIndex, if_true, if_false]
        ring
    · have inIndex := needs.resolve_left inBase
      refine ⟨s, ?_, ?_⟩
      · rcases factor with rfl | rfl | rfl | rfl <;> decide
      · simp only [inBase, inIndex, if_true, if_false]
        ring
  obtain ⟨k, small, same⟩ := difference
  rw [same]
  revert small
  simp only [List.mem_cons, List.not_mem_nil, or_false]
  rintro (rfl | rfl | rfl | rfl | rfl | rfl | rfl) <;> decide

/-- What an operand other than R12 is worth when all registers are zero but R12. -/
def Operand.fixed (place : String → Word) : Operand → Word
  | imm v => BitVec.ofInt 64 v
  | address label => place label
  | _ => 0

/-- An address that needs R12 is computed from the value to store. -/
theorem store_wrong_address {place : String → Word} {base value : Operand} {index : Option Reg} {scale off : Int}
    {width : Size} (member : scale ∈ [1, 2, 4, 8]) (imm : ∀ v, base ≠ .imm v) (noLocal : ∀ slot, base ≠ .slot slot)
    (user : ∀ r, base = .reg r → User r) (indexed : ∀ r, index = some r → User r) (userV : ∀ r, value = .reg r → User r)
    (other : value ≠ .reg .r12) (needs : base = .reg .r12 ∨ index = some .r12) :
    ∃ c : Cpu, value.Readable 8 c ∧
      RangeAbove (c.reg .rsp) 8 (effective place c base index scale off) width.bytes ∧
      ¬ SameAbove (c.reg .rsp) 8
        (c.mem.store (effective place c base index scale off) width.bytes (value.value place c))
        ((c.push (c.reg .r12)).mem.store
          ((⟨base.baseVia, off, index, orOne scale⟩ : Mem).at (beforeStore place c base value)) width.bytes
          ((beforeStore place c base value).reg .r12)) := by
  let v := value.fixed place
  let target := effective place (probe (onlyR12 (v + 64)) 0 0 fun _ => 0) base index scale off
  let slot := target + 0x2000000000000000
  -- Zeros where the local stands, and elsewhere a byte that a store of the value changes.
  let mem : Memory := fun x => if (x - slot).toNat < 8 then 0 else BitVec.ofNat 8 v.toNat + 1
  let c := probe (onlyR12 (v + 64)) (target + 0x4000000000000000) (value.frameFor slot) mem
  have address : effective place c base index scale off = target :=
    effective_probe noLocal user indexed fun r userR => probe_user userR
  have bounds : 0 < width.bytes ∧ width.bytes ≤ 8 := by cases width <;> decide
  have entry : value.value place c = v := by
    cases value with
    | imm n => rfl
    | address label => rfl
    | reg r =>
      have notR12 : r ≠ .r12 := fun same => other (same ▸ rfl)
      exact (probe_user (userV r rfl)).trans (by simp [onlyR12, notR12, v, Operand.fixed])
    | slot at_v =>
      have back : slot - BitVec.ofInt 64 at_v + BitVec.ofInt 64 at_v = slot := BitVec.sub_add_cancel _ _
      have zeros : mem.load slot 8 = 0 := load_zeros fun i small => if_pos (by bv_omega)
      simpa [Operand.value, c, probe, Operand.frameFor, back, v, Operand.fixed] using zeros
  have sp : c.reg .rsp = target + 0x4000000000000000 := rfl
  refine ⟨c, readable_probe userV ?_, ?_, fun same => ?_⟩
  · simp only [WordAbove, slot]
    bv_omega
  · rw [address, sp, RangeAbove]
    bv_omega
  · have reads (r : Reg) (userR : User r) :
        ((c.push (c.reg .r12)).set .r12 (value.value place c)).reg r = (probe (onlyR12 v) 0 0 fun _ => 0).reg r := by
      rw [probe_user userR, entry]
      by_cases isR12 : r = .r12
      · simp [isR12, onlyR12]
      · have zero : c.reg r = onlyR12 (v + 64) r := probe_user userR
        simp [isR12, ((user_iff r).mp userR).1, zero, onlyR12]
    have actual : (⟨base.baseVia, off, index, orOne scale⟩ : Mem).at (beforeStore place c base value) =
        effective place (probe (onlyR12 v) 0 0 fun _ => 0) base index scale off := by
      cases base with
      | imm n => exact absurd rfl (imm n)
      | slot at_b => exact absurd rfl (noLocal at_b)
      | reg r =>
        have ready : beforeStore place c (.reg r) value = (c.push (c.reg .r12)).set .r12 (value.value place c) :=
          Cpu.set_same _ r
        rw [ready]
        exact at_effective member off (reads r (user r rfl)) fun i found => reads i (indexed i found)
      | address label =>
        refine at_effective member off (by simp [beforeStore, Operand.baseVia, Operand.value]) fun i found => ?_
        have notR11 := ((user_iff i).mp (indexed i found)).2.2.1
        simpa [beforeStore, Operand.baseVia, notR11] using reads i (indexed i found)
    have far : 8 ≤ (target - effective place (probe (onlyR12 v) 0 0 fun _ => 0) base index scale off).toNat :=
      effective_far member noLocal user indexed needs
    have pushed : 8 ≤ (target - (target + 0x4000000000000000 - 8)).toNat := by bv_omega
    have outside : ¬ (target - slot).toNat < 8 := by
      simp only [slot]
      bv_omega
    rw [← actual] at far
    -- The byte at the right address: the value there, and what was there before here.
    have here := same target (by rw [sp]; bv_omega)
    rw [address, X64.Memory.store_front bounds.1, X64.Memory.store_of_le (bounds.2.trans far), X64.Cpu.push_mem, sp,
      X64.Memory.store_of_le pushed, entry] at here
    have old : c.mem target = BitVec.ofNat 8 v.toNat + 1 := if_neg outside
    rw [old] at here
    bv_omega

/-! ### Loads -/

/-- Where a load goes to. -/
def destOperand (g : CodeGenerator) (dest : String) : Except PyErr Operand :=
  match g.fnLocals.get? dest with
  | some off => .ok (.slot off)
  | none => (resolve dest).map .reg

/-- The register that is loaded: R12 for a local. -/
def Operand.loadVia : Operand → Reg
  | reg r => r
  | _ => .r12

def Operand.keepCalls : Operand → List Call
  | slot off => [movMemReg .rbp off .r12 none 1]
  | _ => []

def loadCalls (dest base : Operand) (index : Option Reg) (scale off : Int) (width : Size) : List Call :=
  base.baseCalls ++ [.load width dest.loadVia ⟨base.baseVia, off, index, orOne scale⟩] ++ dest.keepCalls

theorem memLoad_ok {dest : String} {base offset : Expr} {width : Size} {index : Option Expr} {scale : Int}
    (register : IsIndex index) {g g' : CodeGenerator} (emission : memLoad dest base offset width index scale g = .ok () g') :
    ∃ b t i off, baseOperand g base = .ok b ∧ destOperand g dest = .ok t ∧ indexOperand index = .ok i ∧
      g.resolveOffset offset = .ok off ∧ g' = g.withScript (g.script ++ loadCalls t b i scale off width) := by
  simp only [memLoad, baseReg_bind_ok, get_bind_ok, ofExcept_bind_ok, resolveOffset_withScript] at emission
  obtain ⟨b, based, off, resolved, emission⟩ := emission
  rw [CodeGenerator.withScript_fnLocals] at emission
  cases slot : g.fnLocals.get? dest with
  | some at_d =>
    simp only [slot, loadReg, pure_bind, indexReg_bind_ok register, asm_bind_ok, asm_ok] at emission
    obtain ⟨i, indexed, rfl⟩ := emission
    exact ⟨b, .slot at_d, i, off, based, by rw [destOperand, slot], indexed, resolved,
      by simp [loadCalls, storeLocal, Operand.keepCalls, Operand.loadVia]⟩
  | none =>
    simp only [slot, loadReg, reg_bind_ok, indexReg_bind_ok register, asm_bind_ok, asm_ok] at emission
    obtain ⟨r, named, i, indexed, rfl⟩ := emission
    exact ⟨b, .reg r, i, off, based, by rw [destOperand, slot, named]; rfl, indexed, resolved,
      by simp [loadCalls, storeLocal, Operand.keepCalls, Operand.loadVia]⟩

/-- The state after the load instruction. -/
def loaded (place : String → Word) (c : Cpu) (dest base : Operand) (index : Option Reg) (scale off : Int) (width : Size) : Cpu :=
  let m := c.set base.baseVia (base.value place c)
  m.set dest.loadVia (m.mem.load ((⟨base.baseVia, off, index, orOne scale⟩ : Mem).at m) width.bytes)

theorem loadCalls_effects {env : Env} {place : String → Word} {dest base : Operand} {index : Option Reg} {scale off : Int}
    {width : Size} (imm : ∀ v, base ≠ .imm v) (indexed : index ≠ some .rsp) (c : Cpu) :
    ∃ d, effects env place (loadCalls dest base index scale off width) c = some d ∧
      d.reg = (loaded place c dest base index scale off width).reg ∧ ((∀ at_d, dest ≠ .slot at_d) → d.mem = c.mem) := by
  have first : effects env place (base.baseCalls ++ [.load width dest.loadVia ⟨base.baseVia, off, index, orOne scale⟩]) c =
      some (loaded place c dest base index scale off width) := by
    rw [effects_append, baseCalls_effects base imm, Option.bind_some, effects_cons,
      effect_load _ _ _ _ _ ⟨_, _, _, _⟩ indexed]
    rfl
  cases dest with
  | slot at_d =>
    generalize loaded place c (.slot at_d) base index scale off width = m at first
    refine ⟨m.setMem (m.mem.store (m.reg .rbp + BitVec.ofInt 64 at_d) 8 (m.reg .r12)), ?_, rfl,
      fun other => absurd rfl (other at_d)⟩
    rw [loadCalls, effects_append, first, Option.bind_some]
    simp [Operand.keepCalls]
  | _ => exact ⟨_, by rw [loadCalls, effects_append, first]; rfl, rfl, fun _ => rfl⟩

/-- The destination is a register, and R13 is not lost: it is the destination itself, or not used for the base. -/
def LoadIntact (dest base : Operand) (index : Option Reg) : Prop :=
  ∃ r, dest = .reg r ∧ ((∀ slot, base ≠ .slot slot) ∨ r = .r13 ∧ index ≠ some .r13)

theorem load_right {place : String → Word} {dest base : Operand} {index : Option Reg} {scale off : Int} {width : Size}
    {c d : Cpu} (member : scale ∈ [1, 2, 4, 8]) (imm : ∀ v, base ≠ .imm v) (user : ∀ r, base = .reg r → User r)
    (indexed : ∀ r, index = some r → User r) (intact : LoadIntact dest base index)
    (regs : d.reg = (loaded place c dest base index scale off width).reg) :
    LoadRight place c dest base index scale off width d := by
  obtain ⟨r, rfl, kept⟩ := intact
  -- The register of the base is R13 only when R13 is the destination.
  have address : (⟨base.baseVia, off, index, orOne scale⟩ : Mem).at (c.set base.baseVia (base.value place c)) =
      effective place c base index scale off := by
    refine at_effective member off (by simp) fun i found => ?_
    by_cases same : i = base.baseVia
    · cases base with
      | imm v => exact absurd rfl (imm v)
      | reg s =>
        obtain rfl : i = s := same
        simp [Operand.baseVia, Operand.value]
      | slot at_b =>
        have lost := kept.resolve_left fun noLocal => noLocal at_b rfl
        have isR13 : i = .r13 := same
        exact absurd (isR13 ▸ found) lost.2
      | address label => exact absurd same ((user_iff i).mp (indexed i found)).2.2.1
    · simp [same]
  refine ⟨?_, fun s userS other => ?_⟩
  · change d.reg r = _
    rw [regs]
    simp only [loaded, Operand.loadVia, X64.Cpu.set_reg, if_true, X64.Cpu.set_mem, address]
  · have notDest : s ≠ r := fun same => other (same ▸ rfl)
    simp only [regs, loaded, Operand.loadVia, X64.Cpu.set_reg, notDest, if_false]
    by_cases same : s = base.baseVia
    · cases base with
      | imm v => exact absurd rfl (imm v)
      | reg t =>
        obtain rfl : s = t := same
        simp [Operand.baseVia, Operand.value]
      | slot at_b =>
        have lost := kept.resolve_left fun noLocal => noLocal at_b rfl
        exact absurd (same.trans lost.1.symm) notDest
      | address label => exact absurd same ((user_iff s).mp userS).2.2.1
    · simp [same]

/-! ### States in which a load goes wrong -/

theorem exists_probe {place : String → Word} {base : Operand} {index : Option Reg} (scale off : Int) (width : Size)
    (user : ∀ r, base = .reg r → User r) (indexed : ∀ r, index = some r → User r) (f : Reg → Word) (frame : Word)
    (mem : Memory) :
    ∃ sp, RangeAbove sp 8 (effective place (probe f sp frame mem) base index scale off) width.bytes := by
  have anywhere (sp : Word) : effective place (probe f sp frame mem) base index scale off =
      effective place (probe f 0 frame mem) base index scale off := by
    have based : base.value place (probe f sp frame mem) = base.value place (probe f 0 frame mem) := by
      cases base with
      | reg r =>
        change (probe f sp frame mem).reg r = (probe f 0 frame mem).reg r
        rw [probe_user (user r rfl), probe_user (user r rfl)]
      | _ => rfl
    rw [effective, effective, based]
    cases index with
    | none => rfl
    | some i => simp only [Option.elim_some, probe_user (indexed i rfl)]
  have bound : width.bytes ≤ 8 := by cases width <;> decide
  generalize effective place (probe f 0 frame mem) base index scale off = a at anywhere
  refine ⟨a + 0x4000000000000000, ?_⟩
  rw [anywhere, RangeAbove]
  bv_omega

theorem load_wrong_ones {place : String → Word} {dest base : Operand} {index : Option Reg} {scale off : Int} {width : Size}
    {sp frame : Word} {d : Cpu}
    (regs : d.reg = (loaded place (probe (fun _ => 1) sp frame fun _ => 0) dest base index scale off width).reg)
    (lost : (∃ slot, dest = .slot slot) ∨ ∃ r slot, dest = .reg r ∧ base = .slot slot ∧ r ≠ .r13) :
    ¬LoadRight place (probe (fun _ => 1) sp frame fun _ => 0) dest base index scale off width d := by
  intro right
  rcases lost with ⟨slot, rfl⟩ | ⟨r, slot, rfl, rfl, other⟩
  · have kept := right.regs .r12 (by decide) (by simp)
    have zero : d.reg .r12 = 0 := by
      rw [regs]
      exact load_zeros fun _ _ => rfl
    rw [zero] at kept
    exact absurd kept (by decide : (0 : Word) ≠ 1)
  · have kept := right.regs .r13 (by decide) (by simpa using other)
    have zero : d.reg .r13 = 0 := by
      rw [regs]
      simp only [loaded, Operand.loadVia, Operand.baseVia, X64.Cpu.set_reg, Ne.symm other, if_false, if_true]
      exact load_zeros fun _ _ => rfl
    rw [zero] at kept
    exact absurd kept (by decide : (0 : Word) ≠ 1)

theorem load_wrong_index {place : String → Word} {slot scale off : Int} {width : Size} (member : scale ∈ [1, 2, 4, 8]) :
    ∃ c : Cpu, RangeAbove (c.reg .rsp) 8 (effective place c (.slot slot) (some .r13) scale off) width.bytes ∧
      ∀ d : Cpu, d.reg = (loaded place c (.reg .r13) (.slot slot) (some .r13) scale off width).reg →
        ¬LoadRight place c (.reg .r13) (.slot slot) (some .r13) scale off width d := by
  have bounds : 0 < width.bytes ∧ width.bytes ≤ 8 := by cases width <;> decide
  -- R13 is 64, the local 0; the byte that is 1 is found with the one and not with the other.
  let f : Reg → Word := fun r => if r = .r13 then 64 else 0
  let target : Word := 64 * BitVec.ofInt 64 scale + BitVec.ofInt 64 off
  let frame : Word := target + 0x2000000000000000 - BitVec.ofInt 64 slot
  let mem : Memory := fun x => if x = target then 1 else 0
  obtain ⟨sp, above⟩ := @exists_probe place (.slot slot) (some .r13) scale off width (by simp) (by simp; decide) f frame mem
  have back : frame + BitVec.ofInt 64 slot = target + 0x2000000000000000 := BitVec.sub_add_cancel _ _
  have base : (Operand.slot slot).value place (probe f sp frame mem) = 0 := by
    change mem.load (frame + BitVec.ofInt 64 slot) 8 = 0
    rw [back]
    exact load_zeros fun i small => if_neg (by bv_omega)
  have address : effective place (probe f sp frame mem) (.slot slot) (some .r13) scale off = target := by
    rw [effective, base, zero_add]
    rfl
  refine ⟨_, above, fun d regs right => ?_⟩
  have value := right.value
  have right_byte : BitVec.ofNat 8 (mem.load target width.bytes).toNat = 1 :=
    (X64.Memory.load_front bounds.1).trans (if_pos rfl)
  have zero : (Operand.reg .r13).value place d = 0 := by
    change d.reg .r13 = 0
    have actual : (⟨.r13, off, some .r13, orOne scale⟩ : Mem).at ((probe f sp frame mem).set .r13 0) = BitVec.ofInt 64 off := by
      rw [at_scaled member]
      simp
    have factor : BitVec.ofInt 64 scale ∈ [(1 : Word), 2, 4, 8] := by
      simp only [List.mem_cons, List.not_mem_nil, or_false] at member ⊢
      rcases member with rfl | rfl | rfl | rfl <;> simp
    rw [regs]
    simp only [loaded, Operand.loadVia, Operand.baseVia, base, X64.Cpu.set_reg, if_true, X64.Cpu.set_mem, actual]
    refine load_zeros fun i small => if_neg fun same => ?_
    rw [add_comm (BitVec.ofInt 64 off)] at same
    have distance : BitVec.ofNat 64 i = 64 * BitVec.ofInt 64 scale := add_right_cancel same
    have low : i < 64 := by omega
    clear_value target
    simp only [List.mem_cons, List.not_mem_nil, or_false] at factor
    rcases factor with same | same | same | same <;> rw [same] at distance <;> bv_omega
  rw [zero, address] at value
  change 0 = mem.load target width.bytes at value
  rw [← value] at right_byte
  exact absurd right_byte (by decide)

/-! ### The statements -/

theorem baseOperand_user {g : CodeGenerator} {node : Expr} {b : Operand} (found : baseOperand g node = .ok b) :
    (∀ v, b ≠ .imm v) ∧ ∀ r, b = .reg r → User r := by
  cases node with
  | reg name =>
    cases result : resolve name with
    | error e => simp [baseOperand, result, Except.map] at found
    | ok r =>
      simp only [baseOperand, result, Except.map, Except.ok.injEq] at found
      subst found
      exact ⟨fun v => Operand.noConfusion, fun s same => by cases same; exact user_of_resolve result⟩
  | ident name =>
    rw [baseOperand] at found
    split at found <;> cases found <;> exact ⟨fun v => Operand.noConfusion, fun s => Operand.noConfusion⟩
  | _ => cases found

theorem destOperand_shape {g : CodeGenerator} {dest : String} {t : Operand} (found : destOperand g dest = .ok t) :
    (∃ slot, t = .slot slot) ∨ ∃ r, t = .reg r := by
  rw [destOperand] at found
  split at found
  · next slot _ => cases found; exact .inl ⟨slot, rfl⟩
  · cases result : resolve dest with
    | error e => simp [result, Except.map] at found
    | ok r =>
      simp only [result, Except.map, Except.ok.injEq] at found
      exact .inr ⟨r, found.symm⟩

section Statements

variable {L : Listing} {M : Machine} {base : Operand} {index : Option Reg} {scale off : Int} {width : Size}

theorem store_iff (loaded : L.Loaded M) {value : Operand} (member : scale ∈ [1, 2, 4, 8]) (imm : ∀ v, base ≠ .imm v)
    (user : ∀ r, base = .reg r → User r) (indexed : ∀ r, index = some r → User r)
    (userV : ∀ r, value = .reg r → User r) {k : Nat} (here : L.At k (storeCalls base index scale off width value)) :
    (∀ c : Cpu, value.Readable 8 c → RangeAbove (c.reg .rsp) 8 (effective L.address c base index scale off) width.bytes →
      ∃ d, effects L.env L.address (storeCalls base index scale off width value) c = some d ∧
        M.Steps ⟨L.offset k, c⟩ ⟨L.offset (k + (storeCalls base index scale off width value).length), d⟩ ∧
        StoreRight L.address c base index scale off width value d) ↔ StoreIntact base index value := by
  have notSp : base ≠ .reg .rsp := fun same => absurd (user .rsp same) (by decide)
  have indexSp : index ≠ some .rsp := fun same => absurd (indexed .rsp same) (by decide)
  constructor
  · intro right
    have noLocal : ∀ slot, base ≠ .slot slot := by
      rintro slot rfl
      obtain ⟨c, readable, clear, changed⟩ := @store_wrong_local L.address value slot scale off index width userV indexed
      obtain ⟨d, ran, -, correct⟩ := right c readable clear
      obtain ⟨e, run, -, -, -, others⟩ := @storeCalls_effects L.env L.address _ _ _ scale off
        width c imm notSp indexSp readable
      obtain rfl := Option.some.inj (ran.symm.trans run)
      exact changed ((others .r13 (by decide) (by decide)).symm.trans (correct.regs .r13 (by decide)))
    refine ⟨noLocal, ?_⟩
    by_contra needs
    simp only [not_or, not_and_or, not_not] at needs
    obtain ⟨other, needs⟩ := needs
    obtain ⟨c, readable, clear, wrong⟩ :=
      @store_wrong_address L.address base value index scale off width member imm noLocal user indexed userV other needs
    obtain ⟨d, ran, -, correct⟩ := right c readable clear
    obtain ⟨e, run, mem, -⟩ := @storeCalls_effects L.env L.address _ _ _ scale off
      width c imm notSp indexSp readable
    obtain rfl := Option.some.inj (ran.symm.trans run)
    exact wrong (mem ▸ correct.mem)
  · intro intact c readable clear
    obtain ⟨d, ran, mem, sp, r12, others⟩ := @storeCalls_effects L.env L.address _ _ _ scale off
      width c imm notSp indexSp readable
    exact ⟨d, ran, loaded.steps (Listing.steps_of_effects here ran),
      store_right member imm user indexed intact clear mem sp r12 others⟩

theorem load_iff (loadedM : L.Loaded M) {dest : Operand} (member : scale ∈ [1, 2, 4, 8]) (imm : ∀ v, base ≠ .imm v)
    (target : (∃ slot, dest = .slot slot) ∨ ∃ r, dest = .reg r) (user : ∀ r, base = .reg r → User r)
    (indexed : ∀ r, index = some r → User r) {k : Nat} (here : L.At k (loadCalls dest base index scale off width)) :
    (∀ c : Cpu, RangeAbove (c.reg .rsp) 8 (effective L.address c base index scale off) width.bytes →
      ∃ d, effects L.env L.address (loadCalls dest base index scale off width) c = some d ∧
        M.Steps ⟨L.offset k, c⟩ ⟨L.offset (k + (loadCalls dest base index scale off width).length), d⟩ ∧
        LoadRight L.address c dest base index scale off width d) ↔ LoadIntact dest base index := by
  have indexSp : index ≠ some .rsp := fun same => absurd (indexed .rsp same) (by decide)
  have run (c : Cpu) := @loadCalls_effects L.env L.address dest _ _ scale off
    width imm indexSp c
  constructor
  · intro right
    -- A state in which the load is wrong is one in which the run of the code, which is unique, is wrong.
    have never {c : Cpu} (clear : RangeAbove (c.reg .rsp) 8 (effective L.address c base index scale off) width.bytes)
        (wrong : ∀ d : Cpu, d.reg = (loaded L.address c dest base index scale off width).reg →
          ¬LoadRight L.address c dest base index scale off width d) : False := by
      obtain ⟨d, ran, -, correct⟩ := right c clear
      obtain ⟨e, ran', regs, -⟩ := run c
      obtain rfl := Option.some.inj (ran.symm.trans ran')
      exact wrong d regs correct
    obtain ⟨sp, clear⟩ := @exists_probe L.address _ _ scale off width user indexed (fun _ => 1) 0 fun _ => 0
    rcases target with ⟨slot, rfl⟩ | ⟨r, rfl⟩
    · exact (never clear fun d regs => load_wrong_ones regs (.inl ⟨slot, rfl⟩)).elim
    · refine ⟨r, rfl, ?_⟩
      by_contra lost
      simp only [not_or, not_forall, not_not, not_and_or] at lost
      obtain ⟨⟨slot, rfl⟩, lost⟩ := lost
      by_cases isR13 : r = .r13
      · subst isR13
        obtain rfl := lost.resolve_left fun other => other rfl
        obtain ⟨c, clear, wrong⟩ := @load_wrong_index L.address slot scale off width member
        exact never clear wrong
      · exact never clear fun d regs => load_wrong_ones regs (.inr ⟨r, slot, rfl, rfl, isR13⟩)
  · intro intact c clear
    obtain ⟨d, ran, regs, -⟩ := run c
    exact ⟨d, ran, loadedM.steps (Listing.steps_of_effects here ran), load_right member imm user indexed intact regs⟩

end Statements

/-- A store is right in every state exactly when its base is no local and R12 holds the value or is not needed for the
address; a load is, exactly when it goes to a register and R13 is that register or not needed for the base. -/
theorem memory_correct_iff {g : CodeGenerator} {names : List String} (bound : g.fnArgs = bindArgs names)
    {base offset : Expr} {index : Option Expr} (register : IsIndex index) {scale : Int} (member : scale ∈ [1, 2, 4, 8])
    (width : Size) :
    (∀ value g', value.IsLeaf → memStore base offset value width index scale g = .ok () g' →
      ∃ b v i off, baseOperand g base = .ok b ∧ g.operand value = .ok v ∧ indexOperand index = .ok i ∧
        g.resolveOffset offset = .ok off ∧ g' = g.withScript (g.script ++ storeCalls b i scale off width v) ∧
        ∀ (L : Listing) (M : Machine), L.Loaded M → ∀ k, L.At k (storeCalls b i scale off width v) →
          ((∀ c : Cpu, v.Readable 8 c → RangeAbove (c.reg .rsp) 8 (effective L.address c b i scale off) width.bytes →
            ∃ d, effects L.env L.address (storeCalls b i scale off width v) c = some d ∧
              M.Steps ⟨L.offset k, c⟩ ⟨L.offset (k + (storeCalls b i scale off width v).length), d⟩ ∧
              StoreRight L.address c b i scale off width v d) ↔ StoreIntact b i v)) ∧
    (∀ dest g', memLoad dest base offset width index scale g = .ok () g' →
      ∃ b t i off, baseOperand g base = .ok b ∧ destOperand g dest = .ok t ∧ indexOperand index = .ok i ∧
        g.resolveOffset offset = .ok off ∧ g' = g.withScript (g.script ++ loadCalls t b i scale off width) ∧
        ∀ (L : Listing) (M : Machine), L.Loaded M → ∀ k, L.At k (loadCalls t b i scale off width) →
          ((∀ c : Cpu, RangeAbove (c.reg .rsp) 8 (effective L.address c b i scale off) width.bytes →
            ∃ d, effects L.env L.address (loadCalls t b i scale off width) c = some d ∧
              M.Steps ⟨L.offset k, c⟩ ⟨L.offset (k + (loadCalls t b i scale off width).length), d⟩ ∧
              LoadRight L.address c t b i scale off width d) ↔ LoadIntact t b i)) := by
  constructor
  · intro value g' leaf emission
    obtain ⟨b, v, i, off, based, found, indexed, resolved, rfl⟩ := memStore_ok leaf register emission
    obtain ⟨imm, user⟩ := baseOperand_user based
    exact ⟨b, v, i, off, based, found, indexed, resolved, rfl, fun L M loaded k here =>
      store_iff loaded member imm user (fun r same => indexOperand_user (same ▸ indexed))
        (fun r same => operand_user bound (same ▸ found)) here⟩
  · intro dest g' emission
    obtain ⟨b, t, i, off, based, target, indexed, resolved, rfl⟩ := memLoad_ok register emission
    obtain ⟨imm, user⟩ := baseOperand_user based
    exact ⟨b, t, i, off, based, target, indexed, resolved, rfl, fun L M loaded k here =>
      load_iff loaded member imm (destOperand_shape target) user (fun r same => indexOperand_user (same ▸ indexed)) here⟩

/-- `ram:write8 reg2 + 5 = reg1`, with 1000 in every register. -/
theorem memory_correct_byte : ∃ (L : Listing) (M : Machine) (n : Nat) (d : Cpu), L.Loaded M ∧
    M.Steps ⟨0, Cpu.filled 1000⟩ ⟨L.offset n, d⟩ ∧ d.mem 1005 = 0xE8 := by
  obtain ⟨stores, -⟩ := @memory_correct_iff (.new false) [] rfl (.reg "reg2") (.number 5) none trivial 1 (by decide) .b8
  obtain ⟨b, v, i, off, based, found, indexed, resolved, -, runs⟩ := stores (.reg "reg1") _ trivial rfl
  obtain rfl : Operand.reg .rbx = b := Except.ok.inj ((by decide : baseOperand (.new false) (.reg "reg2") = _).symm.trans based)
  obtain rfl : Operand.reg .rax = v :=
    Except.ok.inj ((by decide : (CodeGenerator.new false).operand (.reg "reg1") = _).symm.trans found)
  cases indexed
  cases resolved
  obtain ⟨L, M, loaded, calls, -, -⟩ := Listing.exists_loaded (storeCalls (.reg .rbx) none 1 5 .b8 (.reg .rax)) []
    .silent (by decide)
  have here : L.At 0 L.calls := List.prefix_refl _
  rw [calls] at here
  have right := (runs L M loaded 0 here).mpr ⟨fun slot => Operand.noConfusion, .inr (by decide)⟩
  have address : effective L.address (Cpu.filled 1000) (.reg .rbx) none 1 5 = 1005 :=
    show (1000 : Word) + 0 + 5 = 1005 by decide
  obtain ⟨d, -, steps, correct⟩ := right (Cpu.filled 1000) (show User .rax by decide) (by
    rw [address, RangeAbove]
    decide)
  have byte := correct.mem 1005 (by decide)
  rw [address] at byte
  exact ⟨L, M, _, d, loaded, steps, byte.trans (show (Cpu.filled 1000).mem.store 1005 1 1000 1005 = 0xE8 by decide)⟩

/-- `ram:write64 reg10 + 0 = 5` stores at the address 5. -/
theorem memory_wrong_base : ¬∀ (g g' : CodeGenerator) (names : List String) (base offset value : Expr) (width : Size)
    (index : Option Expr) (scale : Int) (b v : Operand) (i : Option Reg) (off : Int), g.fnArgs = bindArgs names →
    IsIndex index → scale ∈ [1, 2, 4, 8] → value.IsLeaf →
    memStore base offset value width index scale g = .ok () g' → baseOperand g base = .ok b →
    g.operand value = .ok v → indexOperand index = .ok i → g.resolveOffset offset = .ok off →
    ∀ env place (c d : Cpu), v.Readable 8 c →
      RangeAbove (c.reg .rsp) 8 (effective place c b i scale off) width.bytes →
      effects env place (storeCalls b i scale off width v) c = some d → StoreRight place c b i scale off width v d := by
  intro right
  have wrong := right (.new false) _ [] (.reg "reg10") (.number 0) (.number 5) .b64 none 1 (.reg .r12) (.imm 5) none 0 rfl
    trivial (by decide) trivial rfl (by decide) rfl rfl rfl .silent (fun _ => 0) (Cpu.filled 1000) _ trivial
    (by unfold RangeAbove; decide) rfl
  have byte := wrong.mem 1000 (by decide)
  revert byte
  decide

end Aclm.Codegen
