import Aclm.Codegen.Run
import Aclm.Core.Code

/-! The three statements that read the flags, after a comparison: the jump, the flag capture and the conditional move. -/

set_option autoImplicit false

namespace Aclm.Codegen

open X64 (Word Reg Cond Cpu Machine Instr)
open Encoder

/-- The conditions that all three tables have. -/
def Accepted (cond : String) : Prop :=
  JCC_OPCODE.contains cond = true ∧ SETCC_OPCODE.contains cond = true ∧ CMOV_OPCODE.contains cond = true

instance (cond : String) : Decidable (Accepted cond) := inferInstanceAs (Decidable (_ ∧ _ ∧ _))

/-- At the offset there is a jump, and its condition holds. -/
def Takes (M : Machine) (o : Nat) (c : Cpu) : Prop :=
  ∃ k disp next, M.fetch o = some (.jcc k disp, next) ∧ k.holds c.flags = true

/-- The three statements with one condition, entered in `c`: the jump stands at `o`, the capture into `dst` is left in
`s`, and the move from `src` to `moved` is left in `d`. -/
structure Readers (L : Listing) (M : Machine) (cond : String) (c : Cpu) (o : Nat) (dst : Reg) (s : Cpu) (moved src : Reg)
    (d : Cpu) : Prop where
  jump : ∃ g label i calls, Stands L g (.jumpIf cond label) i calls ∧ o = L.offset i
  capture : ∃ g name, resolve name = .ok dst ∧ Executes L M g (.flagSetcc name cond) c s
  move : ∃ g name name', resolve name = .ok moved ∧ resolve name' = .ok src ∧
    Executes L M g (.cpuCmov name (.reg name') cond) c d

/-- The jump is taken exactly when the capture yields 1, and exactly then the move moves. -/
structure ReadersAgree (M : Machine) (c : Cpu) (o : Nat) (dst : Reg) (s : Cpu) (dest src : Reg) (d : Cpu) : Prop where
  capture : Takes M o c ↔ s.reg dst = 1
  moved : Takes M o c → d.reg dest = c.reg src
  kept : ¬Takes M o c → d.reg dest = c.reg dest

/-! ### The conditions -/

/-- The tables differ in the condition of one name. -/
theorem accepted_conditions {cond : String} (accepted : Accepted cond) : ∃ k k', jumpCondition cond = some k ∧
    setCondition cond = some k' ∧ ∀ (f : X64.Flags) (a b : Word),
      (k.holds (f.sub a b false) = k'.holds (f.sub a b false) ↔ cond ≠ "abe" ∨ a = b) := by
  obtain ⟨op, found⟩ := Option.isSome_iff_exists.mp accepted.1
  obtain ⟨k, named, -⟩ := jcc_opcode found
  by_cases other : cond = "abe"
  · subst other
    refine ⟨.ae, .be, rfl, rfl, fun f a b => ?_⟩
    rw [X64.holds_ae, X64.holds_be, decide_eq_decide]
    simp only [ne_eq, not_true_eq_false, false_or, BitVec.le_def, BitVec.toNat_eq]
    omega
  · have same : setCondition cond = some k := by
      rw [← named, setCondition, jumpCondition, if_neg other, if_neg other]
    exact ⟨k, k, named, same, fun _ _ _ => by simp [other]⟩

/-! ### The statements -/

variable {L : Listing} {M : Machine} {cond : String}

theorem flagSetcc_appends (g : CodeGenerator) {name : String} {dst : Reg} (named : resolve name = .ok dst) :
    Appends (.flagSetcc name cond) g [.setccReg cond dst] := by
  intro g' emission
  simp only [emitOp, one, reg_bind_ok, named, Except.ok.injEq, exists_eq_left', asm_ok] at emission
  rw [emission]
  rfl

theorem cpuCmov_appends (g : CodeGenerator) {name : String} {dst : Reg} (named : resolve name = .ok dst) {node : Expr}
    {t : Tree} (resolved : resolveTree g node = .ok t) :
    Appends (.cpuCmov name node cond) g (t.calls SCRATCH ++ [.cmovRegReg cond dst SCRATCH]) := by
  intro g' emission
  simp only [emitOp, eval_bind_ok, evalCalls_eq, resolved, Except.map, Except.ok.injEq, exists_eq_left', reg_bind_ok, named,
    asm_ok] at emission
  rw [emission]
  simp

theorem cmp_appends (g : CodeGenerator) {left right : Expr} {l r : Operand} (hl : Core.Leaf left l) (hr : Core.Leaf right r) :
    Appends (.cmp left right) g ([.pushReg .r11] ++ l.mov .r15 ++ [.movRegReg .r11 .r15, .pushReg .r11] ++
      r.mov .r15 ++ [.popReg .r11, cmpRegReg .r11 .r15, .popReg .r11]) := by
  intro g' emission
  simp only [emitOp, emitCmp, asm_bind_ok, eval_bind_ok, hl.evalCalls, hr.evalCalls, Except.ok.injEq, exists_eq_left',
    asm_ok, SCRATCH] at emission
  rw [emission]
  simp

/-- The flags are those of the comparison of the two values. -/
theorem cmp_flags (loaded : L.Loaded M) {g : CodeGenerator} {left right : Expr} {l r : Operand} (hl : Core.Leaf left l)
    (hr : Core.Leaf right r) {c d : Cpu} (compared : Executes L M g (.cmp left right) c d) :
    d.flags = c.flags.sub (l.value L.address c) (r.value L.address c) false := by
  obtain ⟨e, ran, -, flags, -⟩ := Core.cmp_effects L.env L.address hl hr c
  have compares : L.Meets _ c fun d => d.flags = c.flags.sub (l.value L.address c) (r.value L.address c) false :=
    .straight ran flags
  exact compared.post loaded (cmp_appends g hl hr) compares

theorem setcc_effects (env : X64.Env) (place : String → Word) {k : Cond} (named : setCondition cond = some k) (dst : Reg)
    (c : Cpu) : effects env place [.setccReg cond dst] c = some (c.set dst (if k.holds c.flags then 1 else 0)) := by
  rw [effects_cons, effect_setccReg _ _ _ named, Option.bind_some, effects_nil]

theorem cmov_effects (env : X64.Env) (place : String → Word) {k : Cond} (named : jumpCondition cond = some k) (dst : Reg)
    (o : Operand) (c : Cpu) : effects env place (o.mov SCRATCH ++ [.cmovRegReg cond dst SCRATCH]) c =
      some (if k.holds c.flags then (c.set SCRATCH (o.value place c)).set dst (o.value place c)
        else c.set SCRATCH (o.value place c)) := by
  rw [effects_append, mov_effects, Option.bind_some, effects_cons, effect_cmovRegReg _ _ _ named, Option.bind_some,
    effects_nil]
  simp

theorem takes_iff (loaded : L.Loaded M) {k : Cond} (named : jumpCondition cond = some k) {g : CodeGenerator}
    {label : String} {i : Nat} {calls : List Call} (stands : Stands L g (.jumpIf cond label) i calls) (c : Cpu) :
    Takes M (L.offset i) c ↔ k.holds c.flags = true := by
  have appends : Appends (.jumpIf cond label) g [.jcc cond (lbl label)] := by
    intro g' emission
    simp only [emitOp, asm_ok] at emission
    rw [emission]
    rfl
  obtain rfl := stands.calls_eq appends
  have one : Call.instrs (L.disp i (.jcc cond (lbl label))) (.jcc cond (lbl label)) =
      [.jcc k (L.disp i (.jcc cond (lbl label)))] := by
    rw [Call.instrs, named, Option.getD_some]
  have fetched := loaded.fetch stands.here (show (Call.jcc cond (lbl label)).Modelled from trivial) one
  constructor
  · rintro ⟨k', disp, next, there, holds⟩
    rw [fetched] at there
    cases there
    exact holds
  · exact fun holds => ⟨_, _, _, fetched, holds⟩

/-- What the three statements do. -/
theorem Readers.values (loaded : L.Loaded M) {k k' : Cond} (named : jumpCondition cond = some k)
    (named' : setCondition cond = some k') {c s d : Cpu} {o : Nat} {dst moved src : Reg}
    (readers : Readers L M cond c o dst s moved src d) : (Takes M o c ↔ k.holds c.flags = true) ∧
      s.reg dst = (if k'.holds c.flags then 1 else 0) ∧
      d.reg moved = if k.holds c.flags then c.reg src else c.reg moved := by
  obtain ⟨⟨gj, label, i, calls, stands, rfl⟩, ⟨gs, name, namedDst, captured⟩,
    ⟨gm, nameTo, nameSrc, namedTo, namedSrc, ran⟩⟩ := readers
  refine ⟨takes_iff loaded named stands c, ?_, ?_⟩
  · have sets : L.Meets [.setccReg cond dst] c fun s => s.reg dst = if k'.holds c.flags then 1 else 0 :=
      .straight (setcc_effects _ _ named' dst c) (by simp)
    exact captured.post loaded (flagSetcc_appends gs namedDst) sets
  · obtain ⟨-, -, -, notR15⟩ := (user_iff moved).mp (user_of_resolve namedTo)
    have source : resolveTree gm (.reg nameSrc) = .ok (.leaf (.reg src)) := by
      simp [resolveTree, CodeGenerator.operand, namedSrc, Except.map]
    have moves : L.Meets ((Operand.reg src).mov SCRATCH ++ [.cmovRegReg cond moved SCRATCH]) c fun d =>
        d.reg moved = if k.holds c.flags then c.reg src else c.reg moved := by
      refine .straight (cmov_effects _ _ named moved (.reg src) c) ?_
      cases k.holds c.flags <;> simp [SCRATCH, notR15, Operand.value]
    exact ran.post loaded (cpuCmov_appends gm namedTo source) moves

/-- After a comparison of `a` with `b` the three agree, for every condition but `abe`; for that one when `a` is `b`. -/
theorem consumers_agree_iff (loaded : L.Loaded M) (accepted : Accepted cond) {g : CodeGenerator} {left right : Expr}
    {l r : Operand} (hl : Core.Leaf left l) (hr : Core.Leaf right r) {c m s d : Cpu}
    (compared : Executes L M g (.cmp left right) c m) {o : Nat} {dst moved src : Reg}
    (readers : Readers L M cond m o dst s moved src d) :
    ReadersAgree M m o dst s moved src d ↔ cond ≠ "abe" ∨ l.value L.address c = r.value L.address c := by
  obtain ⟨k, k', named, named', agree⟩ := accepted_conditions accepted
  obtain ⟨taken, captured, result⟩ := readers.values loaded named named'
  rw [← agree c.flags, ← cmp_flags loaded hl hr compared]
  constructor
  · rintro ⟨capture, -, -⟩
    rw [taken, captured] at capture
    cases holds : k.holds m.flags <;> cases holds' : k'.holds m.flags <;> simp_all
  · intro same
    refine ⟨?_, fun takes => ?_, fun stays => ?_⟩
    · rw [taken, captured, same]
      cases k'.holds m.flags <;> simp
    · rw [result, if_pos (taken.mp takes)]
    · rw [result, if_neg fun holds => stays (taken.mpr holds)]

/-- The comparison of 2 with 1 and the three statements after it. -/
theorem exists_readers {cond : String} (known : cond = "eq" ∨ cond = "abe") :
    ∃ (L : Listing) (M : Machine) (m s d : Cpu) (o : Nat), L.Loaded M ∧
      Executes L M (.new false) (.cmp (.number 2) (.number 1)) (Cpu.filled 0) m ∧
      Readers L M cond m o .rax s .rbx .rcx d := by
  let compare : List Call := [.pushReg .r11] ++ (Operand.imm 2).mov .r15 ++ [.movRegReg .r11 .r15, .pushReg .r11] ++
    (Operand.imm 1).mov .r15 ++ [.popReg .r11, cmpRegReg .r11 .r15, .popReg .r11]
  let move : List Call := (Operand.reg .rcx).mov SCRATCH ++ [.cmovRegReg cond .rbx SCRATCH]
  obtain ⟨k, k', named, named'⟩ : ∃ k k', jumpCondition cond = some k ∧ setCondition cond = some k' := by
    rcases known with rfl | rfl
    · exact ⟨_, _, rfl, rfl⟩
    · exact ⟨_, _, rfl, rfl⟩
  obtain ⟨L, M, loaded, calls, -, -⟩ := Listing.exists_loaded
    (compare ++ [.jcc cond (lbl "done")] ++ [.setccReg cond .rax] ++ move ++ [.label (lbl "done")]) [] .silent
    (by rcases known with rfl | rfl <;> decide)
  have here : L.At 0 (compare ++ [.jcc cond (lbl "done")] ++ [.setccReg cond .rax] ++ move ++ [.label (lbl "done")]) :=
    calls ▸ List.prefix_refl _
  obtain ⟨here, -⟩ := here.append _
  obtain ⟨here, moves⟩ := here.append _
  obtain ⟨here, captures⟩ := here.append _
  obtain ⟨compares, jumps⟩ := here.append _
  obtain ⟨m, ran, -⟩ := Core.cmp_effects L.env L.address (.number 2) (.number 1) (Cpu.filled 0)
  have captured := setcc_effects L.env L.address named' .rax m
  have moved := cmov_effects L.env L.address named .rbx (.reg .rcx) m
  have completes {i : Nat} {calls : List Call} {c d : Cpu} (here : L.At i calls)
      (ran : effects L.env L.address calls c = some d) : M.Completes (L.offset i) (L.offset (i + calls.length)) c d :=
    loaded.inside (.straight here ran (Nat.le_refl _) (Nat.le_refl _))
  exact ⟨L, M, m, _, _, _, loaded, ⟨_, _, ⟨⟨_, rfl, rfl⟩, compares⟩, completes compares ran⟩,
    ⟨.new false, "done", _, _, ⟨⟨_, rfl, rfl⟩, jumps⟩, rfl⟩,
    ⟨.new false, "reg1", by decide, _, _, ⟨⟨_, rfl, rfl⟩, captures⟩, completes captures captured⟩,
    ⟨.new false, "reg2", "reg3", by decide, by decide, _, _, ⟨⟨_, rfl, rfl⟩, moves⟩, completes moves moved⟩⟩

/-- `eq` after the comparison of 2 with 1. -/
theorem consumers_agree_eq : ∃ (L : Listing) (M : Machine) (m s d : Cpu) (o : Nat),
    Executes L M (.new false) (.cmp (.number 2) (.number 1)) (Cpu.filled 0) m ∧
      Readers L M "eq" m o .rax s .rbx .rcx d ∧ ReadersAgree M m o .rax s .rbx .rcx d := by
  obtain ⟨L, M, m, s, d, o, loaded, compared, readers⟩ := exists_readers (.inl rfl)
  exact ⟨L, M, m, s, d, o, compared, readers,
    (consumers_agree_iff loaded (by decide) (.number 2) (.number 1) compared readers).mpr (.inl (by decide))⟩

/-- `abe` after the comparison of 2 with 1: the jump is taken, and the capture yields 0. -/
theorem consumers_disagree : ¬∀ (L : Listing) (M : Machine) (cond : String) (g : CodeGenerator) (left right : Expr)
    (l r : Operand) (c m s d : Cpu) (o : Nat) (dst moved src : Reg), L.Loaded M → Accepted cond → Core.Leaf left l →
      Core.Leaf right r → Executes L M g (.cmp left right) c m → Readers L M cond m o dst s moved src d →
      ReadersAgree M m o dst s moved src d := by
  intro always
  obtain ⟨L, M, m, s, d, o, loaded, compared, readers⟩ := exists_readers (.inr rfl)
  obtain ⟨capture, -, -⟩ := always L M "abe" _ _ _ _ _ _ m s d o _ _ _ loaded (by decide) (.number 2) (.number 1) compared
    readers
  obtain ⟨taken, captured, -⟩ := readers.values loaded (show jumpCondition "abe" = some .ae from rfl)
    (show setCondition "abe" = some .be from rfl)
  have flags : m.flags = (Cpu.filled 0).flags.sub 2 1 false := cmp_flags loaded (.number 2) (.number 1) compared
  rw [taken, captured, flags] at capture
  exact absurd capture (by decide)

end Aclm.Codegen
