import Aclm.Codegen.Arguments
import Aclm.Encoder.Meets

/-! Statements as they are executed: the code of a statement stands somewhere in the text, is entered in one state
and left in another. -/

set_option autoImplicit false

namespace Aclm.Codegen

open X64 (Word Reg Cpu Env Machine)
open X64.Memory (Separate)
open Encoder

/-- The code that the generator in state `g` appends for `op` stands at a position. -/
structure Stands (L : Listing) (g : CodeGenerator) (op : Op) (i : Nat) (calls : List Call) : Prop where
  emission : ∃ g', emitOp op g = .ok () g' ∧ g'.script = g.script ++ calls
  here : L.At i calls

/-- The code of `op` is entered in `c` and left at its end in `d`. -/
def Executes (L : Listing) (M : Machine) (g : CodeGenerator) (op : Op) (c d : Cpu) : Prop :=
  ∃ i calls, Stands L g op i calls ∧ M.Completes (L.offset i) (L.offset (i + calls.length)) c d

/-- `op` is emitted as `calls`. -/
def Appends (op : Op) (g : CodeGenerator) (calls : List Call) : Prop :=
  ∀ g', emitOp op g = .ok () g' → g'.script = g.script ++ calls

section Statements

variable {L : Listing} {M : Machine} {g : CodeGenerator} {op : Op} {c d : Cpu} {Q : Cpu → Prop}

theorem Stands.calls_eq {i : Nat} {calls calls' : List Call} (stands : Stands L g op i calls)
    (appends : Appends op g calls') : calls = calls' := by
  obtain ⟨g', emission, script⟩ := stands.emission
  exact List.append_cancel_left (script.symm.trans (appends g' emission))

/-- Code that meets a postcondition is left, and only in states that the postcondition holds of. -/
theorem Stands.executes {i : Nat} {calls calls' : List Call} (loaded : L.Loaded M) (stands : Stands L g op i calls)
    (appends : Appends op g calls') (meets : L.Meets calls' c Q) :
    ∃ d, M.Completes (L.offset i) (L.offset (i + calls.length)) c d ∧ Q d := by
  obtain rfl := stands.calls_eq appends
  obtain ⟨d, run, q⟩ := meets i stands.here
  exact ⟨d, loaded.inside run, q⟩

theorem Executes.post {calls : List Call} (loaded : L.Loaded M) (executes : Executes L M g op c d)
    (appends : Appends op g calls) (meets : L.Meets calls c Q) : Q d := by
  obtain ⟨i, calls, stands, run⟩ := executes
  obtain ⟨e, other, q⟩ := stands.executes loaded appends meets
  rwa [run.unique other]

variable (g op) in
/-- A statement whose code can be linked, with data at given offsets, stands at the front of some text. -/
theorem exists_stands_data (env : Env) (offs : Dict Int) (calls : List Call)
    (emission : ∃ g', emitOp op g = .ok () g' ∧ g'.script = g.script ++ calls)
    (ok : ((Assembler.empty false).run calls >>= fun a => a.link (a.labelOffsets ++ offs)).isOk = true) :
    ∃ (L : Listing) (M : Machine), L.Loaded M ∧ L.env = env ∧ Stands L g op 0 calls ∧
      ∀ name, name ∉ Assembler.labelNames calls → L.address name = BitVec.ofInt 64 ((offs.get? name).getD 0) := by
  obtain ⟨L, M, loaded, same, known, base, placed⟩ := Listing.exists_loaded_data calls offs env ok
  have here : L.At 0 L.calls := List.prefix_refl _
  refine ⟨L, M, loaded, known, ⟨emission, same ▸ here⟩, fun name other => ?_⟩
  rw [Listing.address, base, placed name other]
  exact BitVec.zero_add _

variable (g op) in
theorem exists_stands (env : Env) (calls : List Call)
    (emission : ∃ g', emitOp op g = .ok () g' ∧ g'.script = g.script ++ calls)
    (ok : ((Assembler.empty false).run calls >>= fun a => a.link (a.labelOffsets ++ [])).isOk = true) :
    ∃ (L : Listing) (M : Machine), L.Loaded M ∧ L.env = env ∧ Stands L g op 0 calls := by
  obtain ⟨L, M, loaded, known, stands, -⟩ := exists_stands_data g op env [] calls emission ok
  exact ⟨L, M, loaded, known, stands⟩

variable (g op) in
/-- Two statements, one behind the other. -/
theorem exists_stands_both (op' : Op) (env : Env) (as bs : List Call)
    (emission : ∃ g', emitOp op g = .ok () g' ∧ g'.script = g.script ++ as)
    (emission' : ∃ g', emitOp op' g = .ok () g' ∧ g'.script = g.script ++ bs)
    (ok : ((Assembler.empty false).run (as ++ bs) >>= fun a => a.link (a.labelOffsets ++ [])).isOk = true) :
    ∃ (L : Listing) (M : Machine), L.Loaded M ∧ L.env = env ∧ Stands L g op 0 as ∧ Stands L g op' as.length bs := by
  obtain ⟨L, M, loaded, same, known, -⟩ := Listing.exists_loaded (as ++ bs) [] env ok
  have whole : L.At 0 (as ++ bs) := same ▸ List.prefix_refl _
  obtain ⟨first, second⟩ := whole.append as
  rw [Nat.zero_add] at second
  exact ⟨L, M, loaded, known, ⟨emission, first⟩, ⟨emission', second⟩⟩

end Statements

/-- The `n` bytes just below the stack pointer and the `k` bytes of a datum do not overlap. -/
def StackClear (L : Listing) (c : Cpu) (n : Nat) (name : String) (k : Nat) : Prop :=
  Separate (c.reg .rsp - BitVec.ofNat 64 n) n (L.address (data name)) k

theorem StackClear.mono {L : Listing} {c : Cpu} {n n' k : Nat} {name : String} (clear : StackClear L c n name k)
    (le : n' ≤ n) (positive : 0 < k) : StackClear L c n' name k := by
  have part := @Separate.mono _ _ n k clear (n - n') 0 n' k (by omega) (by omega) positive
  have start : c.reg .rsp - BitVec.ofNat 64 n + BitVec.ofNat 64 (n - n') = c.reg .rsp - BitVec.ofNat 64 n' := by bv_omega
  rw [start] at part
  simpa [StackClear] using part

/-! ### Plain operands -/

/-- An integer, the address of a datum, or a register a program can name that is not one of `busy`. -/
def Operand.Outside (busy : List Reg) : Operand → Prop
  | imm _ | address _ => True
  | reg r => User r ∧ r ∉ busy
  | slot _ => False

theorem Operand.Outside.mov_single {busy : List Reg} {o : Operand} (outside : o.Outside busy) {dst : Reg}
    (member : dst ∈ busy) : ∃ call, o.mov dst = [call] := by
  cases o with
  | imm value => exact ⟨_, rfl⟩
  | address label => exact ⟨_, rfl⟩
  | slot off => exact outside.elim
  | reg r =>
    have other : dst ≠ r := fun same => outside.2 (same ▸ member)
    exact ⟨.movRegReg dst r, by simp [Operand.mov, copyTo, other]⟩

/-- Code that keeps the registers outside `busy` keeps the values of such operands. -/
theorem Operand.Outside.value_eq {place : String → Word} {busy : List Reg} {o : Operand} (outside : o.Outside busy)
    {c d : Cpu} (kept : ∀ r, User r → r ∉ busy → d.reg r = c.reg r) : o.value place d = o.value place c := by
  cases o with
  | imm value => rfl
  | address label => rfl
  | slot off => exact outside.elim
  | reg r => exact kept r outside.1 outside.2

/-- An integer, the name of a datum, or a register outside `busy`, and what it refers to. -/
inductive Plain (g : CodeGenerator) (busy : List Reg) : Expr → Operand → Prop where
  | number (v : Int) : Plain g busy (.number v) (.imm v)
  | reg {name : String} {r : Reg} (ok : resolve name = .ok r) (outside : r ∉ busy) : Plain g busy (.reg name) (.reg r)
  | datum {name : String} (found : g.operand (.ident name) = .ok (.address (data name))) :
    Plain g busy (.ident name) (.address (data name))

namespace Plain

variable {g : CodeGenerator} {busy : List Reg} {node : Expr} {o : Operand}

theorem outside (plain : Plain g busy node o) : o.Outside busy := by
  cases plain with
  | number v => trivial
  | reg ok outside => exact ⟨user_of_resolve ok, outside⟩
  | datum found => trivial

theorem operand (plain : Plain g busy node o) : g.operand node = .ok o := by
  cases plain with
  | number v => rfl
  | reg ok outside => simp [CodeGenerator.operand, ok, Except.map]
  | datum found => exact found

theorem withScript (plain : Plain g busy node o) (script : List Call) : Plain (g.withScript script) busy node o := by
  cases plain with
  | number v => exact .number v
  | reg ok outside => exact .reg ok outside
  | datum found => exact .datum ((operand_withScript g script _).trans found)

/-- Another datum does not change what the operand refers to. -/
theorem reserved (plain : Plain g busy node o) (name : String) (bytes : List X64.Byte) :
    Plain (reserved g name bytes) busy node o := by
  by_cases known : g.dataLayout.contains name
  · simpa [Codegen.reserved, known] using plain
  · cases plain with
    | number v => exact .number v
    | reg ok outside => exact .reg ok outside
    | @datum name' found =>
      refine .datum ?_
      simp only [CodeGenerator.operand, CodeGenerator.identOperand] at found ⊢
      split at found
      · cases found
      next noArg =>
      split at found
      · cases found
      next noLocal =>
      split at found
      · cases found
      next noConst =>
      split at found
      · next placed =>
        have still : (g.dataLayout.set name g.dataBytes.length).contains name' = true := by
          simp only [Dict.contains, Dict.get?_set] at placed ⊢
          split
          · rfl
          · exact placed
        have integer : (Codegen.reserved g name bytes).integerConst name' = none := by
          simpa [Codegen.reserved, known, CodeGenerator.integerConst] using noConst
        simp only [integer]
        simp [Codegen.reserved, known, noArg, noLocal, still]
      · split at found
        · cases found
        · cases found

end Plain

theorem nextLabel_withScript (g : CodeGenerator) (s : List Call) :
    (g.withScript s).nextLabel = g.nextLabel.withScript s := rfl

theorem evalCalls_operand {g : CodeGenerator} {node : Expr} {o : Operand} (found : g.operand node = .ok o) (dst : Reg) :
    evalCalls g node dst = .ok (o.mov dst) := by
  cases node with
  | binExpr => cases found
  | _ => simp only [evalCalls, found, Except.map]

/-- The evaluation of a plain operand as the head of a sequence. -/
theorem operand_bind_ok {β : Type} {b : β} {g g' : CodeGenerator} {node : Expr} {o : Operand}
    (found : g.operand node = .ok o) {dst : Reg} {f : Unit → Gen β} :
    (eval node dst >>= f) g = .ok b g' ↔ f () (g.withScript (g.script ++ o.mov dst)) = .ok b g' := by
  rw [eval_bind_ok]
  constructor
  · rintro ⟨calls, appended, rest⟩
    rw [evalCalls_operand found] at appended
    cases appended
    exact rest
  · intro rest
    exact ⟨_, evalCalls_operand found dst, rest⟩

/-- The evaluation of any expression, with its names resolved, as the head of a sequence. -/
theorem tree_bind_ok {β : Type} {b : β} {g g' : CodeGenerator} {node : Expr} {t : Tree} {script : List Call}
    (resolved : resolveTree g node = .ok t) {dst : Reg} {f : Unit → Gen β} :
    (eval node dst >>= f) (g.withScript script) = .ok b g' ↔ f () (g.withScript (script ++ t.calls dst)) = .ok b g' := by
  have calls : evalCalls (g.withScript script) node dst = .ok (t.calls dst) := by
    rw [evalCalls_withScript, evalCalls_eq, resolved]
    rfl
  rw [eval_bind_ok, calls]
  simp

end Aclm.Codegen
