import Aclm.Codegen.Consumers
import Aclm.Codegen.Locals

/-! Statements around which the flags wait: the conditional move evaluates its source before it reads them, and
`cpu:test` keeps its left value in R11 while it evaluates the right one. -/

set_option autoImplicit false

namespace Aclm.Codegen

open X64 (Word Reg Cond Cpu Env Machine Flags)
open X64.Memory (SameAbove)
open Encoder

section Conditions

variable (undefined : Flags → Word → Word → Flags) (place : String → Word) (t left right : Tree) (dst : Reg) (k : Cond)
  (c : Cpu)

/-- What is in a register after the evaluation of a tree into R15. -/
def spared : Word := if dst = .r12 then ((t.clobber none).2.getD (.leaf (.reg .r12))).value place c else c.reg dst

/-- The condition holds of the flags that the source's arithmetic leaves where it holds of those at entry, or it makes no
difference; and R12 is not in the way of the value that is left. -/
def MoveIntact : Prop :=
  match k.holds c.flags, k.holds (t.flags undefined place c none c.flags) with
  | true, true => brought place t c = t.value place c
  | true, false => spared place t dst c = t.value place c
  | false, true => brought place t c = c.reg dst
  | false, false => spared place t dst c = c.reg dst

/-- The destination has the source's value where the condition holds of the flags at entry, else its own. -/
def Moves (d : Cpu) : Prop := d.reg dst = if k.holds c.flags then t.value place c else c.reg dst

/-- The value that the code gives the right operand, after it evaluated the left one. -/
def broughtRight : Word := (right.clobber (left.clobber none).2).1.value place c

/-- What is in R11 when the two are tested: the left operand, or the right one once arithmetic has gone through. -/
def waiting : Word :=
  match right with
  | .leaf _ => brought place left c
  | .node .. => broughtRight place left right c

/-- R12 has the right operand's value already, and the word in R11 gives with it what the left operand's value would. -/
structure TestIntact : Prop where
  r12 : broughtRight place left right c = c.reg .r12
  zero : (waiting place left right c &&& broughtRight place left right c = 0) ↔
    (left.value place c &&& right.value place c = 0)
  sign : (waiting place left right c &&& broughtRight place left right c).msb =
    (left.value place c &&& right.value place c).msb

/-- The flags are those of the two values, and no register that a program can name has changed. -/
structure Tested (d : Cpu) : Prop where
  zf : d.flags.zf = true ↔ left.value place c &&& right.value place c = 0
  sf : d.flags.sf = (left.value place c &&& right.value place c).msb
  cf : d.flags.cf = false
  of : d.flags.of = false
  regs : ∀ r, User r → d.reg r = c.reg r

end Conditions

variable {L : Listing} {M : Machine} {g : CodeGenerator} {args : List String}

/-! ### The conditional move -/

/-- A source that is no arithmetic is moved as it should be. -/
theorem moveIntact_leaf (undefined : Flags → Word → Word → Flags) (place : String → Word) (o : Operand) (dst : Reg)
    (k : Cond) (c : Cpu) : MoveIntact undefined place (.leaf o) dst k c := by
  have value : brought place (.leaf o) c = (Tree.leaf o).value place c := by
    by_cases late : o = .reg .r12 <;> simp [brought, Tree.clobber, late]
  have own : spared place (.leaf o) dst c = c.reg dst := by
    by_cases late : dst = .r12 <;> simp [spared, Tree.clobber, late, Tree.value, Operand.value]
  unfold MoveIntact
  simp only [Tree.flags]
  cases k.holds c.flags
  · exact own
  · exact value

/-- The move is made on the flags that the evaluation of the source leaves. -/
theorem cmov_result (loaded : L.Loaded M) (bound : g.fnArgs = bindArgs args) {name : String} {dst : Reg}
    (named : resolve name = .ok dst) {node : Expr} {t : Tree} (resolved : resolveTree g node = .ok t) {cond : String}
    {k : Cond} (condition : jumpCondition cond = some k) {i : Nat} {calls : List Call}
    (stands : Stands L g (.cpuCmov name node cond) i calls) {c : Cpu} (room : 8 * t.depth + 8 ≤ 2 ^ 64)
    (framed : t.Framed (8 * t.depth) c) :
    ∃ d, M.Completes (L.offset i) (L.offset (i + calls.length)) c d ∧
      d.reg dst = if k.holds (t.flags L.env.undefined L.address c none c.flags) then brought L.address t c
        else spared L.address t dst c := by
  obtain ⟨m, ran, done, flags⟩ := @Tree.runs_flags L.env L.address t (8 * t.depth) 0 c c none SCRATCH (.start _ c)
    (resolveTree_readable bound resolved framed) (by simp) (by simp) room (by decide)
  obtain ⟨-, -, notR11, notR15⟩ := (user_iff dst).mp (user_of_resolve named)
  have left : m.reg dst = spared L.address t dst c := by
    by_cases late : dst = .r12
    · rw [late, done.late (by decide), spared, if_pos rfl]
    · rw [done.regs dst notR15 notR11 late, spared, if_neg late]
  have moved : effects L.env L.address (t.calls SCRATCH ++ [.cmovRegReg cond dst SCRATCH]) c =
      some (if k.holds m.flags then m.set dst (m.reg SCRATCH) else m) := by
    rw [effects_append, ran, Option.bind_some, effects_cons, effect_cmovRegReg _ _ _ condition, Option.bind_some,
      effects_nil]
  refine stands.executes loaded (cpuCmov_appends g named resolved) (.straight moved ?_)
  have value : m.reg SCRATCH = brought L.address t c := done.value
  rw [flags]
  cases k.holds (t.flags L.env.undefined L.address c none c.flags) <;> simp [left, value]

/-- It is the move that the flags at entry call for where the arithmetic of the source leaves their condition as it is. -/
theorem cmov_iff (loaded : L.Loaded M) (bound : g.fnArgs = bindArgs args) {name : String} {dst : Reg}
    (named : resolve name = .ok dst) {node : Expr} {t : Tree} (resolved : resolveTree g node = .ok t) {cond : String}
    {k : Cond} (condition : jumpCondition cond = some k) {i : Nat} {calls : List Call}
    (stands : Stands L g (.cpuCmov name node cond) i calls) {c : Cpu} (room : 8 * t.depth + 8 ≤ 2 ^ 64)
    (framed : t.Framed (8 * t.depth) c) :
    ∃ d, M.Completes (L.offset i) (L.offset (i + calls.length)) c d ∧
      (Moves L.address t dst k c d ↔ MoveIntact L.env.undefined L.address t dst k c) := by
  obtain ⟨d, run, result⟩ := cmov_result loaded bound named resolved condition stands room framed
  refine ⟨d, run, ?_⟩
  rw [Moves, MoveIntact, result]
  cases k.holds c.flags <;> cases k.holds (t.flags L.env.undefined L.address c none c.flags) <;> simp

/-- `cpu:cmov reg2 = 1 + 2 if eq` stands at the front of a text. -/
theorem exists_cmov : ∃ (L : Listing) (M : Machine), L.Loaded M ∧
    Stands L (.new false) (.cpuCmov "reg2" (.binExpr .add (.number 1) (.number 2)) "eq") 0
      (Tree.calls (.node .add (.leaf (.imm 1)) (.leaf (.imm 2))) SCRATCH ++ [.cmovRegReg "eq" .rbx SCRATCH]) := by
  obtain ⟨L, M, loaded, -, stands⟩ := exists_stands (.new false)
    (.cpuCmov "reg2" (.binExpr .add (.number 1) (.number 2)) "eq") .silent
    (Tree.calls (.node .add (.leaf (.imm 1)) (.leaf (.imm 2))) SCRATCH ++ [.cmovRegReg "eq" .rbx SCRATCH]) ⟨_, rfl, rfl⟩
    (by decide)
  exact ⟨L, M, loaded, stands⟩

/-- With ZF clear before and after. -/
theorem cmov_iff_clear : ∃ (L : Listing) (M : Machine) (n : Nat) (d : Cpu), L.Loaded M ∧
    M.Completes (L.offset 0) (L.offset n) (Cpu.filled 5) d ∧ d.reg .rbx = 5 := by
  obtain ⟨L, M, loaded, stands⟩ := exists_cmov
  obtain ⟨d, run, right⟩ := @cmov_iff L M (.new false) [] loaded rfl "reg2" .rbx (by decide) _
    (.node .add (.leaf (.imm 1)) (.leaf (.imm 2))) rfl "eq" .e (by decide) 0 _ stands (Cpu.filled 5) (by decide)
    ⟨trivial, trivial⟩
  exact ⟨L, M, _, d, loaded, run, right.mpr rfl⟩

/-- ZF is set, and the sum clears it. -/
theorem cmov_wrong : ¬∀ (L : Listing) (M : Machine) (g : CodeGenerator) (args : List String) (name : String) (dst : Reg)
    (node : Expr) (t : Tree) (cond : String) (k : Cond) (i : Nat) (calls : List Call) (c d : Cpu), L.Loaded M →
      g.fnArgs = bindArgs args → resolve name = .ok dst → resolveTree g node = .ok t → CMOV_OPCODE.contains cond = true →
      jumpCondition cond = some k → Stands L g (.cpuCmov name node cond) i calls → t.Framed (8 * t.depth) c →
      M.Completes (L.offset i) (L.offset (i + calls.length)) c d → Moves L.address t dst k c d := by
  intro always
  obtain ⟨L, M, loaded, stands⟩ := exists_cmov
  let t : Tree := .node .add (.leaf (.imm 1)) (.leaf (.imm 2))
  let c : Cpu := (Cpu.filled 0).setFlags { (Cpu.filled 0).flags with zf := true }
  obtain ⟨d, run, result⟩ := @cmov_result L M (.new false) [] loaded rfl "reg2" .rbx (by decide) _ t rfl "eq" .e (by decide)
    0 _ stands c (by decide) ⟨trivial, trivial⟩
  have moved : d.reg .rbx = 3 :=
    always L M _ [] _ .rbx _ t _ .e 0 _ c d loaded rfl (by decide) rfl (by decide) (by decide) stands ⟨trivial, trivial⟩ run
  have stays : d.reg .rbx = 0 := result
  exact absurd (stays.symm.trans moved) (by decide)

/-! ### The test -/

theorem cpuTest_appends (g : CodeGenerator) {node node' : Expr} {left right : Tree}
    (resolved : resolveTree g node = .ok left) (resolved' : resolveTree g node' = .ok right) :
    Appends (.cpuTest node node') g (left.calls .r11 ++ right.calls .r12 ++ [testRegReg .r11 .r12]) := by
  intro g' emission
  simp only [emitOp, cpuTest, eval_bind_ok, evalCalls_withScript, asm_ok] at emission
  simp only [evalCalls_eq, resolved, resolved', Except.map, Except.ok.injEq, exists_eq_left'] at emission
  rw [emission]
  simp

/-- Both operands are brought, the left one to R11 if it lasts there. -/
theorem operands_runs {env : Env} {place : String → Word} {left right : Tree} {n : Nat} {c : Cpu}
    (readable : left.Readable n c) (readable' : right.Readable n c) (room : 8 * left.depth ≤ n)
    (room' : 8 * right.depth ≤ n) (fits : n + 8 ≤ 2 ^ 64) :
    ∃ d, effects env place (left.calls .r11 ++ right.calls .r12) c = some d ∧
      d.reg .r11 = waiting place left right c ∧ d.reg .r12 = broughtRight place left right c ∧
      ∀ r, r ≠ .r11 → r ≠ .r12 → d.reg r = c.reg r := by
  obtain ⟨m, ran, done⟩ := @Tree.runs env place left n 0 c c none .r11 (.start n c) readable (by simp) (by simpa using room)
    fits (by decide)
  have between : Evaluating place n c (left.clobber none).2 m :=
    ⟨fun r notR11 notR12 _ => done.regs r notR11 notR11 notR12, done.late (by decide), done.mem.mono room⟩
  have sp : m.reg .rsp = c.reg .rsp := done.regs .rsp (by decide) (by decide) (by decide)
  obtain ⟨d, ran', done'⟩ := @Tree.runs env place right n 0 c m _ .r12 between readable' (by simp [sp])
    (by simpa using room') fits (by decide)
  refine ⟨d, by rw [effects_append, ran, Option.bind_some, ran'], ?_, done'.value, fun r notR11 notR12 => ?_⟩
  · cases right with
    | leaf o =>
      rw [Tree.calls, mov_effects] at ran'
      cases ran'
      exact done.value
    | node op first second => rw [node_r11 ran', done'.value, waiting, broughtRight]
  · rw [done'.regs r notR12 notR11 notR12, done.regs r notR11 notR11 notR12]

/-- What is tested is what R11 and R12 hold then. -/
theorem test_result (loaded : L.Loaded M) (bound : g.fnArgs = bindArgs args) {node node' : Expr} {left right : Tree}
    (resolved : resolveTree g node = .ok left) (resolved' : resolveTree g node' = .ok right) {i : Nat} {calls : List Call}
    (stands : Stands L g (.cpuTest node node') i calls) {c : Cpu} {n : Nat} (room : 8 * left.depth ≤ n)
    (room' : 8 * right.depth ≤ n) (fits : n + 8 ≤ 2 ^ 64) (framed : left.Framed n c) (framed' : right.Framed n c) :
    ∃ d f u, M.Completes (L.offset i) (L.offset (i + calls.length)) c d ∧
      d.flags = Flags.logic f u (waiting L.address left right c &&& broughtRight L.address left right c) ∧
      d.reg .r12 = broughtRight L.address left right c ∧ ∀ r, r ≠ .r11 → r ≠ .r12 → d.reg r = c.reg r := by
  obtain ⟨m, ran, r11, r12, others⟩ := @operands_runs L.env L.address left right n c
    (resolveTree_readable bound resolved framed) (resolveTree_readable bound resolved' framed') room room' fits
  obtain ⟨u, unknown⟩ : ∃ u, L.env.undefined m.flags (m.reg .r11) (m.reg .r12) = u := ⟨_, rfl⟩
  have tests : effects L.env L.address (left.calls .r11 ++ right.calls .r12 ++ [testRegReg .r11 .r12]) c =
      some (m.setFlags (m.flags.logic u (m.reg .r11 &&& m.reg .r12))) := by
    rw [effects_append, ran, Option.bind_some, effects_cons, effect_testRegReg, unknown, Option.bind_some, effects_nil]
  obtain ⟨d, run, rfl⟩ := stands.executes loaded (cpuTest_appends g resolved resolved')
    (.straight tests (Eq.refl (m.setFlags (m.flags.logic u (m.reg .r11 &&& m.reg .r12)))))
  exact ⟨_, m.flags, u, run, by rw [X64.Cpu.setFlags_flags, r11, r12], r12, others⟩

/-- The flags are those of the two operands where R12 held the right one already and the left one lasts in R11. -/
theorem test_iff (loaded : L.Loaded M) (bound : g.fnArgs = bindArgs args) {node node' : Expr} {left right : Tree}
    (resolved : resolveTree g node = .ok left) (resolved' : resolveTree g node' = .ok right) {i : Nat} {calls : List Call}
    (stands : Stands L g (.cpuTest node node') i calls) {c : Cpu} {n : Nat} (room : 8 * left.depth ≤ n)
    (room' : 8 * right.depth ≤ n) (fits : n + 8 ≤ 2 ^ 64) (framed : left.Framed n c) (framed' : right.Framed n c) :
    ∃ d, M.Completes (L.offset i) (L.offset (i + calls.length)) c d ∧
      (Tested L.address left right c d ↔ TestIntact L.address left right c) := by
  obtain ⟨d, f, u, run, flags, r12, others⟩ := test_result loaded bound resolved resolved' stands room room' fits framed
    framed'
  refine ⟨d, run, fun tested => ⟨?_, ?_, ?_⟩, fun intact => ⟨?_, ?_, ?_, ?_, fun r user => ?_⟩⟩
  · rw [← r12]
    exact tested.regs .r12 (by decide)
  · simpa [flags, Flags.logic, Flags.ofResult] using tested.zf
  · simpa [flags, Flags.logic, Flags.ofResult] using tested.sf
  · simpa [flags, Flags.logic, Flags.ofResult] using intact.zero
  · simpa [flags, Flags.logic, Flags.ofResult] using intact.sign
  · rw [flags, Flags.logic]
  · rw [flags, Flags.logic]
  · obtain ⟨-, -, notR11, -⟩ := (user_iff r).mp user
    by_cases isR12 : r = .r12
    · rw [isR12, r12, intact.r12]
    · exact others r notR11 isR12

/-- `cpu:test 6, 3` where R12 holds 3. -/
theorem test_iff_leaves : ∃ (L : Listing) (M : Machine) (n : Nat) (d : Cpu), L.Loaded M ∧
    M.Completes (L.offset 0) (L.offset n) (Cpu.filled 3) d ∧ d.flags.zf = false ∧ d.reg .r12 = 3 := by
  obtain ⟨L, M, loaded, -, stands⟩ := exists_stands (.new false) (.cpuTest (.number 6) (.number 3)) .silent
    (Tree.calls (.leaf (.imm 6)) .r11 ++ Tree.calls (.leaf (.imm 3)) .r12 ++ [testRegReg .r11 .r12]) ⟨_, rfl, rfl⟩
    (by decide)
  obtain ⟨d, run, right⟩ := @test_iff L M (.new false) [] loaded rfl _ _ (.leaf (.imm 6)) (.leaf (.imm 3)) rfl rfl 0 _ stands
    (Cpu.filled 3) 0 (by decide) (by decide) (by decide) trivial trivial
  have intact : TestIntact L.address (.leaf (.imm 6)) (.leaf (.imm 3)) (Cpu.filled 3) := ⟨rfl, Iff.rfl, rfl⟩
  have tested := right.mpr intact
  refine ⟨L, M, _, d, loaded, run, ?_, tested.regs .r12 (by decide)⟩
  rw [← Bool.not_eq_true, tested.zf]
  exact fun zero : (6 : Word) &&& 3 = 0 => absurd zero (by decide)

/-- `cpu:test 4, 1 + 2`: the sum goes through R11, where the 4 waits. -/
theorem test_wrong : ¬∀ (L : Listing) (M : Machine) (g : CodeGenerator) (args : List String) (node node' : Expr)
    (left right : Tree) (i : Nat) (calls : List Call) (c d : Cpu) (n : Nat), L.Loaded M → g.fnArgs = bindArgs args →
      resolveTree g node = .ok left → resolveTree g node' = .ok right → Stands L g (.cpuTest node node') i calls →
      8 * left.depth ≤ n → 8 * right.depth ≤ n → left.Framed n c → right.Framed n c →
      M.Completes (L.offset i) (L.offset (i + calls.length)) c d → Tested L.address left right c d := by
  intro always
  let right : Tree := .node .add (.leaf (.imm 1)) (.leaf (.imm 2))
  obtain ⟨L, M, loaded, -, stands⟩ := exists_stands (.new false)
    (.cpuTest (.number 4) (.binExpr .add (.number 1) (.number 2))) .silent
    (Tree.calls (.leaf (.imm 4)) .r11 ++ right.calls .r12 ++ [testRegReg .r11 .r12]) ⟨_, rfl, rfl⟩ (by decide)
  obtain ⟨d, f, u, run, flags, -, -⟩ := @test_result L M (.new false) [] loaded rfl _ _ (.leaf (.imm 4)) right rfl rfl 0 _
    stands (Cpu.filled 0) 8 (by decide) (by decide) (by decide) trivial ⟨trivial, trivial⟩
  have tested := always L M _ [] _ _ (.leaf (.imm 4)) right 0 _ _ d 8 loaded rfl rfl rfl stands (by decide) (by decide)
    trivial ⟨trivial, trivial⟩ run
  have zero : d.flags.zf = true := tested.zf.mpr (show (4 : Word) &&& 3 = 0 by decide)
  have three : d.flags = Flags.logic f u (3 &&& 3) := flags
  rw [three] at zero
  exact absurd zero (by simp [Flags.logic, Flags.ofResult])

end Aclm.Codegen
