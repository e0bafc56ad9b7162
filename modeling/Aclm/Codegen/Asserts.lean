import Aclm.Codegen.Declared

/-! What `assert:bytes` measures: from a label, or from somewhere else when there is none before it. -/

set_option autoImplicit false

namespace Aclm.Codegen

open X64 (Reg Byte)
open Encoder

/-! ### The labels of the program -/

/-- The name that a step declares: of a label or of a function. -/
def Step.declares : Step → Option String
  | .op _ (.label name) => some name
  | .enter _ name _ _ => some name
  | _ => none

/-- The call with which a step begins, if it declares a name. -/
def Step.declaration (s : Step) : List Call :=
  match s.declares with
  | some name => [.label (lbl name)]
  | none => []

/-- A step appends its declaration and, behind it, what declares nothing. -/
structure StepDone (s : Step) (g g' : CodeGenerator) : Prop where
  script : ∃ calls, g'.script = g.script ++ s.declaration ++ calls ∧ calls.all internal = true
  asserts : g.assertBytes <+: g'.assertBytes
  deterministic : g'.deterministic = g.deterministic

theorem Internal.stepDone {s : Step} {g g' : CodeGenerator} (step : Internal g g') (none : s.declares = none) :
    StepDone s g g' := by
  obtain ⟨calls, script, all⟩ := step.script
  refine ⟨⟨calls, ?_, all⟩, step.asserts, step.deterministic⟩
  rw [script, Step.declaration, none, List.append_nil]

theorem StepDone.internal {s : Step} {g m g' : CodeGenerator} (first : StepDone s g m) (rest : Internal m g') :
    StepDone s g g' := by
  obtain ⟨calls, script, all⟩ := first.script
  obtain ⟨more, script', all'⟩ := rest.script
  refine ⟨⟨calls ++ more, ?_, internal_append all all'⟩, first.asserts.trans rest.asserts,
    rest.deterministic.trans first.deterministic⟩
  rw [script', script, List.append_assoc]

/-- The teaching map is no part of the code. -/
theorem note_kept {line : Int} {g g' : CodeGenerator} (ok : note line g = .ok () g') :
    g'.script = g.script ∧ g'.assertBytes = g.assertBytes ∧ g'.deterministic = g.deterministic := by
  unfold note at ok
  rw [get_bind_ok] at ok
  split at ok
  · rw [modify_ok.mp ok]
    exact ⟨rfl, rfl, rfl⟩
  · rw [(pure_ok.mp ok).2]
    exact ⟨rfl, rfl, rfl⟩

/-- The declaration itself, and some calls behind it. -/
theorem declared_done {s : Step} {name : String} (declares : s.declares = some name) {line : Int} {g m g' : CodeGenerator}
    (noted : note line g = .ok () m) {calls : List Call} (all : calls.all internal = true)
    (ok : asm (.label (lbl name) :: calls) m = .ok () g') : StepDone s g g' := by
  obtain ⟨script, asserts, deterministic⟩ := note_kept noted
  rw [asm_ok.mp ok]
  refine ⟨⟨calls, ?_, all⟩, asserts ▸ List.prefix_refl _, deterministic⟩
  rw [CodeGenerator.withScript_script, script, Step.declaration, declares, List.append_assoc]
  rfl

theorem step_done (s : Step) {g g' : CodeGenerator} (ok : s.emit g = .ok () g') : StepDone s g g' := by
  cases s with
  | op line op =>
    by_cases label : ∃ name, op = .label name
    · obtain ⟨name, rfl⟩ := label
      obtain ⟨_, m, noted, emission⟩ := bind_ok.mp ok
      exact declared_done rfl noted rfl emission
    · have other : ∀ name, op ≠ .label name := fun name same => label ⟨name, same⟩
      have step : Undeclared (Step.op line op).emit := .bind (.note line) fun _ => .emitOp other
      have none : (Step.op line op).declares = none := by
        cases op with
        | label name => exact absurd rfl (other name)
        | _ => rfl
      exact (step _ _ _ ok).stepDone none
  | enter line name args locals =>
    obtain ⟨_, m, noted, emission⟩ := bind_ok.mp ok
    obtain ⟨_, n, label, rest⟩ := bind_ok.mp emission
    have frame (total : Int) : (frameCalls total).all internal = true := by
      unfold frameCalls
      dsimp only
      split <;> rfl
    have behind : Undeclared (do
        asm (pushes CALLEE_SAVED)
        asm (frameCalls (placeLocals locals ([], 0)).2)
        modify fun g => { g with fnLocals := (placeLocals locals ([], 0)).1, inFn := true, fnArgs := bindArgs args }) :=
      .bind (.asm rfl) fun _ => .bind (.asm (frame _)) fun _ => .modify fun _ => .same rfl (List.prefix_refl _) rfl
    exact (declared_done rfl noted rfl label).internal (behind _ _ _ rest)
  | leave =>
    have step : Undeclared Step.leave.emit := .bind (.modify fun _ => .same rfl (List.prefix_refl _) rfl) fun _ => .asm rfl
    exact (step _ _ _ ok).stepDone rfl
  | finish stmts =>
    have step : Undeclared (Step.finish stmts).emit := .bind .get fun _ => .ite (.pure _) (.asm rfl)
    exact (step _ _ _ ok).stepDone rfl

/-! ### Where a label stands -/

/-- A label or a function of that name is declared where the code has that length. -/
def DeclaredIn (all : List Step) (g : CodeGenerator) (name : String) (o : Nat) : Prop :=
  ∃ before s after h, all = before ++ s :: after ∧ s.declares = some name ∧ runSteps before g = .ok () h ∧ h.codeLength = o

theorem not_internal (name : String) : internal (.label (lbl name)) = false := by
  simp only [internal, startsWith, lbl, String.toList_append]
  rfl

/-- A label among the calls of a step is the one that the step declares. -/
theorem label_of_done {s : Step} {own before after : List Call} {name : String} (internals : own.all internal = true)
    (shape : s.declaration ++ own = before ++ .label (lbl name) :: after) : s.declares = some name ∧ before = [] := by
  have outside (calls : List Call) : own ≠ calls ++ .label (lbl name) :: after := by
    intro same
    rw [same, List.all_append, List.all_cons, not_internal] at internals
    simp at internals
  cases declares : s.declares with
  | none =>
    rw [Step.declaration, declares] at shape
    exact absurd shape (outside before)
  | some n =>
    rw [Step.declaration, declares] at shape
    cases before with
    | nil =>
      have same : lbl n = lbl name := by simpa using (List.cons.inj shape).1
      exact ⟨congrArg some (lbl_injective same), rfl⟩
    | cons c before => exact absurd (List.cons.inj shape).2 (outside before)

/-- What the steps do together. -/
theorem runSteps_done {all : List Step} {g g' : CodeGenerator} (ok : runSteps all g = .ok () g') :
    (∃ calls, g'.script = g.script ++ calls) ∧ g.assertBytes <+: g'.assertBytes ∧ g'.deterministic = g.deterministic := by
  induction all generalizing g with
  | nil =>
    rw [(pure_ok.mp ok).2]
    exact ⟨⟨[], (List.append_nil _).symm⟩, List.prefix_refl _, rfl⟩
  | cons s all ih =>
    obtain ⟨_, m, first, later⟩ := bind_ok.mp ok
    obtain ⟨⟨own, script, -⟩, asserts, deterministic⟩ := step_done s first
    obtain ⟨⟨calls, script'⟩, asserts', deterministic'⟩ := ih later
    refine ⟨⟨s.declaration ++ own ++ calls, ?_⟩, asserts.trans asserts', deterministic'.trans deterministic⟩
    rw [script', script]
    simp only [List.append_assoc]

/-- A label of the program stands where one of the steps declares it. -/
theorem runSteps_labels {all : List Step} {g g' : CodeGenerator} (ok : runSteps all g = .ok () g') {name : String}
    {calls before after : List Call} (script : g'.script = g.script ++ calls) (shape : calls = before ++ .label (lbl name) :: after) :
    DeclaredIn all g name (size g.deterministic (g.script ++ before)) := by
  induction all generalizing g calls before with
  | nil =>
    rw [(pure_ok.mp ok).2] at script
    have none : calls = [] := List.append_cancel_left ((List.append_nil _).trans script).symm
    rw [shape] at none
    exact absurd none (by simp)
  | cons s all ih =>
    obtain ⟨_, m, first, later⟩ := bind_ok.mp ok
    obtain ⟨⟨own, script', internals⟩, -, deterministic⟩ := step_done s first
    obtain ⟨⟨rest, script''⟩, -, -⟩ := runSteps_done later
    have parts : s.declaration ++ own ++ rest = before ++ .label (lbl name) :: after := by
      rw [script'', script', List.append_assoc, List.append_assoc, List.append_cancel_left_eq] at script
      rw [← shape, ← script, List.append_assoc]
    rcases List.append_eq_append_iff.mp parts with ⟨more, rfl, tail⟩ | ⟨more, own_eq, tail⟩
    · -- The label is declared by a later step.
      have declared := ih later script'' tail
      obtain ⟨earlier, t, others, h, rfl, declares, ran, length⟩ := declared
      refine ⟨s :: earlier, t, others, h, rfl, declares, bind_ok.mpr ⟨(), m, first, ran⟩, ?_⟩
      rw [length, deterministic, script']
      simp only [List.append_assoc]
    · cases more with
      | nil =>
        -- The label is the first call of the later steps.
        rw [List.append_nil] at own_eq
        obtain ⟨earlier, t, others, h, rfl, declares, ran, length⟩ := 
          ih later script'' (show rest = [] ++ .label (lbl name) :: after from tail.symm)
        refine ⟨s :: earlier, t, others, h, rfl, declares, bind_ok.mpr ⟨(), m, first, ran⟩, ?_⟩
        rw [length, deterministic, script', List.append_nil, List.append_assoc, own_eq]
      | cons c more =>
        obtain ⟨rfl, -⟩ := List.cons.inj tail
        obtain ⟨declares, rfl⟩ := label_of_done internals own_eq
        refine ⟨[], s, all, g, rfl, declares, rfl, ?_⟩
        rw [List.append_nil]
        rfl

/-- What a step declares is among the calls. -/
theorem DeclaredIn.script {all : List Step} {g g' : CodeGenerator} {name : String} {o : Nat} (declared : DeclaredIn all g name o)
    (ok : runSteps all g = .ok () g') :
    ∃ before after, g'.script = before ++ .label (lbl name) :: after ∧ size g'.deterministic before = o := by
  obtain ⟨earlier, s, later, h, rfl, declares, ran, length⟩ := declared
  rw [runSteps_append] at ok
  obtain ⟨_, h', ran', ok⟩ := bind_ok.mp ok
  cases ran.symm.trans ran'
  obtain ⟨_, m, step, rest⟩ := bind_ok.mp ok
  obtain ⟨⟨own, script, -⟩, -, deterministic⟩ := step_done s step
  obtain ⟨⟨calls, script'⟩, -, deterministic'⟩ := runSteps_done rest
  refine ⟨h.script, own ++ calls, ?_, ?_⟩
  · rw [script', script, Step.declaration, declares]
    simp only [List.append_assoc, List.cons_append, List.nil_append]
  · rw [deterministic', deterministic]
    exact length

/-- A label or a function of that name is declared in the program, that many bytes from the start of its code. -/
def Declared (opts : Options) (p : Program) (name : String) (o : Nat) : Prop :=
  ∃ g, prepare opts p = .ok g ∧ DeclaredIn (programSteps p.statements) g name o

section Emitted

variable {opts : Options} {p : Program} {g : CodeGenerator} {a : Assembler}

theorem labels_iff (emission : emitted opts p = .ok (g, a)) (name : String) (o : Nat) :
    a.labels.get? (lbl name) = some o ↔ Declared opts p name o := by
  obtain ⟨g₀, prepared, ok, run⟩ := emitted_ok.mp emission
  rw [emitProgram_steps] at ok
  have start := (prepare_ok prepared).1
  obtain ⟨-, -, deterministic⟩ := runSteps_done ok
  constructor
  · intro found
    rw [Assembler.run_labels run] at found
    simp only [Assembler.empty, Dict.get?, Option.none_or] at found
    obtain ⟨before, after, shape, length⟩ := Assembler.labelsFrom_boundary g.script 0 found
    have whole : g.script = g₀.script ++ g.script := by rw [start, List.nil_append]
    have declared := runSteps_labels ok whole shape
    rw [start, List.nil_append, ← deterministic, ← Nat.zero_add (size _ _), ← length] at declared
    exact ⟨g₀, prepared, declared⟩
  · rintro ⟨g₁, prepared', declared⟩
    cases prepared.symm.trans prepared'
    obtain ⟨before, after, shape, length⟩ := declared.script ok
    rw [Listing.run_defines run shape, length]

/-- A statement that is reached stands between two parts of the emission. -/
theorem Reached.parts {op : Op} {h : CodeGenerator} (reached : Reached opts p op h) (emission : emitted opts p = .ok (g, a)) :
    ∃ m, emitOp op h = .ok () m ∧ m.assertBytes <+: g.assertBytes := by
  obtain ⟨g₀, prepared, ok, -⟩ := emitted_ok.mp emission
  obtain ⟨g₁, prepared', before, line, after, shape, ran⟩ := reached
  cases prepared.symm.trans prepared'
  rw [emitProgram_steps, shape, runSteps_append] at ok
  obtain ⟨_, k, first, rest⟩ := bind_ok.mp ok
  obtain ⟨_, k', first', noted⟩ := bind_ok.mp ran
  cases first.symm.trans first'
  obtain ⟨_, m, step, later⟩ := bind_ok.mp rest
  obtain ⟨_, h', noted', emits⟩ := bind_ok.mp step
  cases noted.symm.trans noted'
  exact ⟨m, emits, (runSteps_done later).2.1⟩

end Emitted

/-! ### What is measured -/

def AssertOp.holds (op : AssertOp) (n : Nat) (limit : Int) : Prop :=
  match op with
  | .le => (n : Int) ≤ limit
  | .eq => (n : Int) = limit

theorem checkBytes_ok {a : Assembler} {s : AssertBytes} : checkBytes a s = .ok () ↔
    AssertOp.holds s.op (if labelStart a s.name ≤ s.codeOff then s.codeOff - labelStart a s.name else a.code.length) s.limit := by
  obtain ⟨name, limit, op, off⟩ := s
  unfold checkBytes AssertOp.holds
  dsimp only
  generalize (if labelStart a name ≤ off then off - labelStart a name else a.code.length) = n
  cases op with
  | le =>
    dsimp only
    split
    · next large => simpa using large
    · next small => simpa using small
  | eq =>
    dsimp only
    split
    · next other => simpa using other
    · next same => simpa using same

/-- The assertion is checked behind the linker, and does not stop the build. -/
structure LetsBuild (g : CodeGenerator) (linked : Assembler) (s : AssertBytes) : Prop where
  recorded : s ∈ g.assertBytes
  passes : checkBytes linked s = .ok ()

/-- A label or function of that name stands at most `off` bytes from the start, and the bytes between it and `off` are
as many as the assertion says. -/
def Measures (opts : Options) (p : Program) (name : String) (op : AssertOp) (limit : Int) (off : Nat) : Prop :=
  ∃ o, Declared opts p name o ∧ o ≤ off ∧ AssertOp.holds op (off - o) limit

/-- What is measured when the program does not declare the name. -/
def unnamedSize (a : Assembler) (name : String) (off : Nat) : Nat :=
  let start := (a.labels.get? name).getD 0
  if start ≤ off then off - start else a.code.length

theorem forM_ok {α : Type} {f : α → Except PyErr Unit} {xs : List α} : xs.forM f = .ok () ↔ ∀ x ∈ xs, f x = .ok () := by
  induction xs with
  | nil => simp [pure, Except.pure]
  | cons x xs ih =>
    change (do f x; xs.forM f) = .ok () ↔ _
    rw [bind_eq_ok, List.forall_mem_cons, ← ih]
    exact ⟨fun ⟨_, first, rest⟩ => ⟨first, rest⟩, fun ⟨first, rest⟩ => ⟨(), first, rest⟩⟩

section Linked

variable {opts : Options} {p : Program} {g : CodeGenerator} {a linked : Assembler}

/-- The image is written if every assertion lets the program be built. -/
theorem generate_eq (emission : emitted opts p = .ok (g, a)) (joined : a.link (targetOffsets opts g a) = .ok linked)
    (bytes : ∀ s ∈ g.assertBytes, LetsBuild g linked s)
    (sizes : ∀ s ∈ g.assertSizes, checkSize linked.code.length g.dataBytes.length s = .ok ()) :
    generate opts p = writeImage opts g linked := by
  refine generate_checked ⟨a, emission, joined, ?_⟩
  rw [runAsserts, forM_ok.mpr fun s member => (bytes s member).passes]
  exact forM_ok.mpr sizes

/-- And is not written if one does not. -/
theorem LetsBuild.of_generate (emission : emitted opts p = .ok (g, a)) (joined : a.link (targetOffsets opts g a) = .ok linked)
    {image : List Byte} (built : generate opts p = .ok image) {s : AssertBytes} (recorded : s ∈ g.assertBytes) :
    LetsBuild g linked s := by
  obtain ⟨done, emission', built⟩ := bind_eq_ok.mp built
  cases emission.symm.trans emission'
  obtain ⟨linked', joined', built⟩ := bind_eq_ok.mp built
  cases joined.symm.trans joined'
  obtain ⟨_, checked, -⟩ := bind_eq_ok.mp built
  obtain ⟨_, bytes, -⟩ := bind_eq_ok.mp checked
  exact ⟨recorded, forM_ok.mp bytes s recorded⟩

theorem Reached.recorded (emission : emitted opts p = .ok (g, a)) {name : String} {limit : Int} {op : AssertOp}
    {h : CodeGenerator} (reached : Reached opts p (.assertBytes name limit op) h) :
    ⟨name, limit, op, h.codeLength⟩ ∈ g.assertBytes := by
  obtain ⟨m, emits, kept⟩ := reached.parts emission
  apply kept.subset
  rw [modify_ok.mp emits]
  simp

/-- The size that the check compares, by where the label stands. -/
theorem letsBuild_iff (emission : emitted opts p = .ok (g, a)) (joined : a.link (targetOffsets opts g a) = .ok linked)
    {name : String} {limit : Int} {op : AssertOp} {h : CodeGenerator} (reached : Reached opts p (.assertBytes name limit op) h) :
    LetsBuild g linked ⟨name, limit, op, h.codeLength⟩ ↔
      (∃ o, Declared opts p name o ∧
        AssertOp.holds op (if o ≤ h.codeLength then h.codeLength - o else a.code.length) limit) ∨
      (∀ o, ¬ Declared opts p name o) ∧ AssertOp.holds op (unnamedSize a name h.codeLength) limit := by
  obtain ⟨-, -, -, run⟩ := emitted_ok.mp emission
  obtain ⟨-, labels, -, -⟩ := Assembler.link_code run joined
  obtain ⟨length, -, -⟩ := Assembler.link_fields run joined
  have checks : LetsBuild g linked ⟨name, limit, op, h.codeLength⟩ ↔
      checkBytes linked ⟨name, limit, op, h.codeLength⟩ = .ok () := ⟨(·.passes), fun passes => ⟨reached.recorded emission, passes⟩⟩
  rw [checks, checkBytes_ok, labelStart, labels, length]
  cases found : a.labels.get? (lbl name) with
  | none =>
    have none (o : Nat) : ¬ Declared opts p name o := by
      rw [← labels_iff emission, found]
      exact nofun
    simp only [Option.getD_none, none, false_and, exists_false, false_or, not_false_eq_true, implies_true, true_and]
    rfl
  | some o =>
    have declared := (labels_iff emission name o).mp found
    have only (o' : Nat) (declared' : Declared opts p name o') : o' = o := by
      rw [← labels_iff emission, found] at declared'
      exact (Option.some.inj declared').symm
    constructor
    · exact fun holds => .inl ⟨o, declared, holds⟩
    · rintro (⟨o', declared', holds⟩ | ⟨none, -⟩)
      · cases only o' declared'
        exact holds
      · exact absurd declared (none o)

/-- An assertion says what it measures just where its label stands before it, or where the size that is compared
instead does not agree: the length of the whole code for a label behind the assertion; without a label, the distance
from the start of the code. -/
theorem assert_bytes_iff (emission : emitted opts p = .ok (g, a)) (joined : a.link (targetOffsets opts g a) = .ok linked)
    {name : String} {limit : Int} {op : AssertOp} {h : CodeGenerator} (reached : Reached opts p (.assertBytes name limit op) h) :
    (LetsBuild g linked ⟨name, limit, op, h.codeLength⟩ ↔ Measures opts p name op limit h.codeLength) ↔
      (∃ o, Declared opts p name o ∧ o ≤ h.codeLength) ∨
      (∃ o, Declared opts p name o ∧ h.codeLength < o ∧ ¬ AssertOp.holds op a.code.length limit) ∨
      (∀ o, ¬ Declared opts p name o) ∧ ¬ AssertOp.holds op (unnamedSize a name h.codeLength) limit := by
  rw [letsBuild_iff emission joined reached]
  by_cases declared : ∃ o, Declared opts p name o
  · obtain ⟨o, here⟩ := declared
    have only (o' : Nat) : Declared opts p name o' ↔ o' = o := by
      rw [← labels_iff emission, (labels_iff emission name o).mpr here]
      exact ⟨fun same => (Option.some.inj same).symm, fun same => same ▸ rfl⟩
    simp only [Measures, only, exists_eq_left, forall_eq, false_and, or_false]
    by_cases before : o ≤ h.codeLength
    · simp [before]
    · simp [before, Nat.lt_of_not_le before]
  · have none : ∀ o, ¬ Declared opts p name o := fun o here => declared ⟨o, here⟩
    simp [Measures, none]

end Linked

/-! ### A label that does not exist -/

/-- An assertion about a label, with or without the label in front of it. -/
def asserting (front : List Stmt) : Program := ⟨front ++ [.op 2 (.assertBytes "start" 16 .le)]⟩

theorem asserting_linked {front : List Stmt} (small : front = [] ∨ front = [.op 1 (.label "start")]) :
    ∃ g a linked, emitted ⟨false, false, false⟩ (asserting front) = .ok (g, a) ∧
      a.link (targetOffsets ⟨false, false, false⟩ g a) = .ok linked := by
  have links : (do
      let out ← emitted ⟨false, false, false⟩ (asserting front)
      out.2.link (targetOffsets ⟨false, false, false⟩ out.1 out.2)).isOk = true := by
    rcases small with rfl | rfl <;> decide
  obtain ⟨linked, done⟩ := exists_of_isOk links
  obtain ⟨⟨g, a⟩, emission, joined⟩ := bind_eq_ok.mp done
  exact ⟨g, a, linked, emission, joined⟩

theorem assert_bytes_iff_start : ∃ g a linked h,
    emitted ⟨false, false, false⟩ (asserting [.op 1 (.label "start")]) = .ok (g, a) ∧
    Reached ⟨false, false, false⟩ (asserting [.op 1 (.label "start")]) (.assertBytes "start" 16 .le) h ∧
    (LetsBuild g linked ⟨"start", 16, .le, h.codeLength⟩ ↔
      Measures ⟨false, false, false⟩ (asserting [.op 1 (.label "start")]) "start" .le 16 h.codeLength) := by
  obtain ⟨g, a, linked, emission, joined⟩ := asserting_linked (.inr rfl)
  have reached : Reached ⟨false, false, false⟩ (asserting [.op 1 (.label "start")]) (.assertBytes "start" 16 .le)
      ((CodeGenerator.new false).withScript [.label (lbl "start")]) :=
    ⟨.new false, rfl, [.op 1 (.label "start")], 2, _, rfl, rfl⟩
  have declared : Declared ⟨false, false, false⟩ (asserting [.op 1 (.label "start")]) "start" 0 :=
    ⟨.new false, rfl, [], _, _, .new false, rfl, rfl, rfl, rfl⟩
  exact ⟨g, a, linked, _, emission, reached,
    (assert_bytes_iff emission joined reached).mpr (.inl ⟨0, declared, Nat.zero_le _⟩)⟩

/-- Without the label the assertion passes as well. -/
theorem assert_bytes_missing : ∃ g a linked h, emitted ⟨false, false, false⟩ (asserting []) = .ok (g, a) ∧
    a.link (targetOffsets ⟨false, false, false⟩ g a) = .ok linked ∧
    Reached ⟨false, false, false⟩ (asserting []) (.assertBytes "start" 16 .le) h ∧
    ¬ (LetsBuild g linked ⟨"start", 16, .le, h.codeLength⟩ ↔
      Measures ⟨false, false, false⟩ (asserting []) "start" .le 16 h.codeLength) := by
  obtain ⟨g, a, linked, emission, joined⟩ := asserting_linked (.inl rfl)
  have reached : Reached ⟨false, false, false⟩ (asserting []) (.assertBytes "start" 16 .le) (.new false) :=
    ⟨.new false, rfl, [], 2, _, rfl, rfl⟩
  have none (o : Nat) : ¬ Declared ⟨false, false, false⟩ (asserting []) "start" o := by
    rintro ⟨g₀, -, before, s, after, h, shape, declares, -⟩
    have all : programSteps (asserting []).statements =
        [.op 2 (.assertBytes "start" 16 .le), .finish (asserting []).statements] := rfl
    have member : s ∈ programSteps (asserting []).statements := shape ▸ List.mem_append_right _ List.mem_cons_self
    rw [all] at member
    rcases List.mem_pair.mp member with rfl | rfl <;> cases declares
  refine ⟨g, a, linked, .new false, emission, joined, reached, fun same => ?_⟩
  have passes := (letsBuild_iff emission joined reached).mpr (.inr ⟨none, ?_⟩)
  · obtain ⟨o, declared, -⟩ := same.mp passes
    exact none o declared
  · have length : a.code.length ≤ 16 := by
      obtain ⟨g₀, prepared, ok, run⟩ := emitted_ok.mp emission
      cases prepared
      cases ok
      rw [Assembler.run_length run]
      decide
    have small : unnamedSize a "start" 0 ≤ 16 := by
      unfold unnamedSize
      dsimp only
      split <;> omega
    have none : (unnamedSize a "start" 0 : Int) ≤ 16 := by exact_mod_cast small
    exact none

end Aclm.Codegen
