import Aclm.Codegen.Raises
import Aclm.Codegen.Targets
import Aclm.Compiler
import Aclm.Image.Limits

/-! Which exceptions the generator ends with: the emission of a program as a list of steps, and the steps that raise what
the compiler does not report. -/

set_option autoImplicit false

namespace Aclm.Codegen

open X64 (Reg)
open Encoder

/-! ### Statements with an unknown word -/

/-- What is evaluated before the word of a statement is looked up. -/
def operandsOf : Op → Gen Unit
  | .flagSetcc dest _ => do
    let _ ← reg dest
    return
  | .cpuCmov dest src _ => do
    eval src SCRATCH
    let _ ← reg dest
    return
  | .memLoad dest base offset _ index _ => do
    let _ ← baseReg base
    let _ ← ofExcept ((← get).resolveOffset offset)
    let _ ← loadReg ((← get).fnLocals.get? dest) dest
    let _ ← indexReg index
    return
  | .memStore base offset value _ index _ => do
    asm [.pushReg .r12]
    eval value .r12
    let _ ← baseReg base
    let _ ← ofExcept ((← get).resolveOffset offset)
    let _ ← indexReg index
    return
  | _ => return

theorem operandsOf_graceful (op : Op) : Graceful True (operandsOf op) := by
  cases op with
  | flagSetcc => exact .bind (.reg _) fun _ => .pure _
  | cpuCmov => exact .seq (.eval _ _) <| .bind (.reg _) fun _ => .pure _
  | memLoad =>
    exact .bind (.baseReg _) fun _ => .bind .get fun _ => .bind (.ofExcept fun _ => resolveOffset_polite _ _) fun _ =>
      .bind .get fun _ => .bind (.loadReg _ _) fun _ => .bind (.indexReg _) fun _ => .pure _
  | memStore =>
    exact .seq (.code rfl) <| .seq (.eval _ _) <| .bind (.baseReg _) fun _ => .bind .get fun _ =>
      .bind (.ofExcept fun _ => resolveOffset_polite _ _) fun _ => .bind (.indexReg _) fun _ => .pure _
  | _ => exact .pure _

/-- How a statement with an unknown word ends once its operands are evaluated: with a call that the assembler cannot take,
or with an exception that is not reported. -/
def Doomed (m : CodeGenerator) : EStateM.Result PyErr CodeGenerator Unit → Prop
  | .ok _ g => ∃ c rest, g.script = m.script ++ c :: rest ∧ c.known = false
  | .error e g => g.script = m.script ∧ ¬ e.Reported

/-- `y` does what `x` does, and is doomed from there on. -/
structure Dooms (x y : Gen Unit) : Prop where
  ended : ∀ {g e m}, x g = .error e m → y g = .error e m
  done : ∀ {g m}, x g = .ok () m → Doomed m (y g)

namespace Dooms

variable {α : Type} {f h : α → Gen Unit}

theorem bind {x : Gen α} (rest : ∀ a, Dooms (f a) (h a)) : Dooms (x >>= f) (x >>= h) := by
  constructor
  · intro g e m ended
    rw [bind_apply] at ended ⊢
    cases first : x g with
    | error e' m' => rwa [first] at ended
    | ok a m' =>
      rw [first] at ended
      exact (rest a).ended ended
  · intro g m done
    rw [bind_apply] at done ⊢
    cases first : x g with
    | error e' m' => rw [first] at done; cases done
    | ok a m' =>
      rw [first] at done
      exact (rest a).done done

/-- An index there is, is in a register. -/
theorem indexReg {f h : Option Reg → Gen Unit} (node : Expr) (rest : ∀ r, Dooms (f (some r)) (h (some r))) :
    Dooms (Codegen.indexReg (some node) >>= f) (Codegen.indexReg (some node) >>= h) := by
  cases node with
  | reg name =>
    simp only [Codegen.indexReg, bind_assoc, pure_bind]
    exact bind rest
  | _ =>
    simp only [Codegen.indexReg, bind_assoc, pure_bind]
    exact bind fun _ => rest _

/-- Nothing is left but a call that the assembler cannot take. -/
theorem last {y : Gen Unit} (doomed : ∀ m, Doomed m (y m)) : Dooms (pure ()) y := by
  constructor
  · intro g e m ended
    cases ended
  · intro g m done
    obtain ⟨-, rfl⟩ := pure_ok.mp done
    exact doomed _

theorem asm {c : Call} {rest : List Call} (unknown : c.known = false) : Dooms (pure ()) (asm (c :: rest)) :=
  last fun _ => ⟨c, rest, rfl, unknown⟩

end Dooms

/-- The factor of an index has no code. -/
theorem not_scaled {index : Option Expr} {scale : Int} (unknown : ¬ Graceful.Scaled index scale) :
    ∃ node, index = some node ∧ (scaleBits (orOne scale)).isOk = false := by
  cases index with
  | none => exact (unknown (.inl rfl)).elim
  | some node => exact ⟨node, rfl, Bool.eq_false_iff.mpr fun coded => unknown (.inr coded)⟩

theorem emitOp_dooms {op : Op} (unknown : Unknown op) : Dooms (operandsOf op) (emitOp op) := by
  cases op with
  | jumpIf cond label => exact .asm (Bool.eq_false_iff.mpr unknown)
  | flagSetcc dest cond => exact .bind fun _ => .asm (Bool.eq_false_iff.mpr unknown)
  | cpuCmov dest src cond => exact .bind fun _ => .bind fun _ => .asm (Bool.eq_false_iff.mpr unknown)
  | memLoad dest base offset width index scale =>
    obtain ⟨node, rfl, bad⟩ := not_scaled unknown
    refine .bind fun base => .bind fun g => .bind fun off => .bind fun g => .bind fun dst => .indexReg node fun r => .last ?_
    exact fun m => ⟨.load width dst ⟨base, off, some r, orOne scale⟩, storeLocal (g.fnLocals.get? dest) dst,
      List.append_assoc m.script [_] _, bad⟩
  | memStore base offset value width index scale =>
    obtain ⟨node, rfl, bad⟩ := not_scaled unknown
    exact .bind fun _ => .bind fun _ => .bind fun base => .bind fun g => .bind fun off => .indexReg node fun r => .asm bad
  | cpuEnter size nesting => exact .last fun _ => ⟨rfl, id⟩
  | _ => exact unknown.elim

/-! ### Programs as steps -/

/-- One step of the emission of a program. -/
inductive Step where
  | op (line : Int) (op : Op)
  | enter (line : Int) (name : String) (args : List String) (locals : List (String × Int))
  | leave
  /-- The end of the main program. -/
  | finish (stmts : List Stmt)

def Step.emit : Step → Gen Unit
  | .op line o => do
    note line
    emitOp o
  | .enter line name args locals => do
    note line
    enterFn name args locals
  | .leave => leaveFn
  | .finish stmts => emitEnd stmts

def runSteps : List Step → Gen Unit
  | [] => return
  | s :: rest => do
    s.emit
    runSteps rest

theorem runSteps_append (first rest : List Step) : runSteps (first ++ rest) = (do runSteps first; runSteps rest) := by
  induction first with
  | nil => simp [runSteps]
  | cons s first ih => simp [runSteps, ih, bind_assoc]

mutual

def stmtSteps : Stmt → List Step
  | .op line op => [.op line op]
  | .fnDef line name args body locals => .enter line name args locals :: steps body ++ [.leave]

def steps : List Stmt → List Step
  | [] => []
  | s :: rest => stmtSteps s ++ steps rest

end

mutual

theorem emit_steps : (s : Stmt) → emit s = runSteps (stmtSteps s)
  | .op line op => by simp [emit, stmtSteps, runSteps, Step.emit]
  | .fnDef line name args body locals => by
    simp [emit, stmtSteps, runSteps, runSteps_append, Step.emit, emitAll_steps body, bind_assoc]

theorem emitAll_steps : (stmts : List Stmt) → emitAll stmts = runSteps (steps stmts)
  | [] => rfl
  | s :: rest => by simp [emitAll, steps, runSteps_append, emit_steps s, emitAll_steps rest]

end

/-- The steps of a program, in the order in which they are taken. -/
def programSteps (stmts : List Stmt) : List Step :=
  steps (stmts.filter fun s => !isFn s) ++ .finish stmts :: steps (stmts.filter isFn)

theorem emitProgram_steps (stmts : List Stmt) : emitProgram stmts = runSteps (programSteps stmts) := by
  simp [emitProgram, programSteps, runSteps_append, runSteps, Step.emit, emitAll_steps]

/-- The step is a statement with an unknown word. -/
def Step.Unknown : Step → Prop
  | .op _ o => Codegen.Unknown o
  | _ => False

theorem note_graceful {q : Prop} (line : Int) : Graceful q (note line) :=
  .bind .get fun _ => .ite (.modify (fun _ => rfl) fun _ => rfl) (.pure _)

theorem note_ok (line : Int) (g : CodeGenerator) : ∃ m, note line g = .ok () m := by
  change ∃ m, (if g.listing then modify fun g => { g with teachMap := g.teachMap ++ [(line, g.codeLength)] }
    else pure () : Gen Unit) g = .ok () m
  split
  · exact ⟨_, rfl⟩
  · exact ⟨g, rfl⟩

theorem frameCalls_known (total : Int) : (frameCalls total).all Call.known = true := by
  unfold frameCalls
  dsimp only
  split <;> rfl

theorem step_graceful (s : Step) : Graceful (¬ s.Unknown) s.emit := by
  cases s with
  | op line op => exact .seq (note_graceful line) (emitOp_graceful op)
  | enter line name args locals =>
    exact .seq (note_graceful line) <| .seq (.code rfl) <| .seq (.code (map_push_known _)) <|
      .seq (.code (frameCalls_known _)) (.modify (fun _ => rfl) fun _ => rfl)
  | leave => exact .seq (.modify (fun _ => rfl) fun _ => rfl) (.code rfl)
  | finish stmts => exact .bind .get fun _ => .ite (.pure _) (.code rfl)

theorem runSteps_graceful : (steps : List Step) → Graceful False (runSteps steps)
  | [] => .pure _
  | s :: rest => .seq ((step_graceful s).mono False.elim) (runSteps_graceful rest)

/-! ### The exception of a whole emission -/

/-- The assembler, run on what the generator called so far. -/
def assembledSoFar (g : CodeGenerator) : Except PyErr Assembler := (Assembler.empty g.deterministic).run g.script

/-- What an emission and its assembler end with. -/
def bytesAfter : EStateM.Result PyErr CodeGenerator Unit → Except PyErr (CodeGenerator × Assembler)
  | .ok _ g => do .ok (g, ← assembledSoFar g)
  | .error e g => do
    let _ ← assembledSoFar g
    .error e

theorem emitted_eq (opts : Options) (p : Program) :
    emitted opts p = (do bytesAfter (runSteps (programSteps p.statements) (← prepare opts p))) := by
  unfold emitted
  congr 1
  funext g
  rw [emitProgram_steps]
  cases runSteps (programSteps p.statements) g <;> rfl

section Growth

variable {q : Prop} {g g' : CodeGenerator}

theorem Grown.assembled (grown : Grown q g g') : ∃ calls, (q → calls.all Call.known = true) ∧
    assembledSoFar g' = (do (← assembledSoFar g).run calls) := by
  obtain ⟨calls, script, known⟩ := grown.script
  exact ⟨calls, known, by rw [assembledSoFar, grown.deterministic, script, Assembler.run_append]; rfl⟩

/-- The first exception stays. -/
theorem Grown.error (grown : Grown q g g') {e : PyErr} (raised : assembledSoFar g = .error e) :
    assembledSoFar g' = .error e := by
  obtain ⟨calls, -, assembled⟩ := grown.assembled
  rw [assembled, raised]
  rfl

theorem Grown.polite (grown : Grown True g g') (polite : Polite (assembledSoFar g)) : Polite (assembledSoFar g') := by
  obtain ⟨calls, known, assembled⟩ := grown.assembled
  rw [assembled]
  exact .bind polite fun a => .run (known trivial) a

end Growth

/-- An exception of the assembler before a step is the one that is raised after it. -/
theorem bytesAfter_error {q : Prop} {m : Gen Unit} (graceful : Graceful q m) {g : CodeGenerator} {e : PyErr}
    (raised : assembledSoFar g = .error e) : bytesAfter (m g) = .error e := by
  have ending := graceful.ends g
  cases done : m g with
  | ok u g' =>
    rw [done] at ending
    rw [bytesAfter, Grown.error ending raised]
    rfl
  | error e' g' =>
    rw [done] at ending
    rw [bytesAfter, Grown.error ending.1 raised]
    rfl

/-- The words of a statement are looked up: its operands have been evaluated, and nothing was raised before. -/
def Ready (op : Op) (g : CodeGenerator) : Prop :=
  ∃ m, operandsOf op g = .ok () m ∧ (assembledSoFar m).isOk = true

/-- The state in which one of the steps begins to emit a statement. -/
def ReachedIn (all : List Step) (g : CodeGenerator) (op : Op) (h : CodeGenerator) : Prop :=
  ∃ before line after, all = before ++ .op line op :: after ∧ (do runSteps before; note line) g = .ok () h

theorem ReachedIn.later {s : Step} {all : List Step} {g m h : CodeGenerator} {op : Op} (first : s.emit g = .ok () m)
    (reached : ReachedIn all m op h) : ReachedIn (s :: all) g op h := by
  obtain ⟨before, line, after, rfl, ran⟩ := reached
  refine ⟨s :: before, line, after, rfl, ?_⟩
  rw [runSteps, bind_assoc]
  exact bind_ok.mpr ⟨(), m, first, ran⟩

/-- From the state in which its words are looked up, a doomed statement only adds calls. -/
theorem ends_doomed {op : Op} (unknown : Unknown op) {g m : CodeGenerator} (evaluated : operandsOf op g = .ok () m) :
    Doomed m (emitOp op g) ∧ Ends False m (emitOp op g) := by
  have doomed := (emitOp_dooms unknown).done evaluated
  have grown := (operandsOf_graceful op).ends g
  rw [evaluated] at grown
  have ending := (emitOp_graceful op).ends g
  refine ⟨doomed, ?_⟩
  cases done : emitOp op g with
  | ok u g' =>
    rw [done] at doomed ending
    obtain ⟨c, rest, script, -⟩ := doomed
    exact ⟨ending.deterministic.trans grown.deterministic.symm, c :: rest, script, False.elim⟩
  | error e g' =>
    rw [done] at doomed ending
    exact ⟨.same (ending.1.deterministic.trans grown.deterministic.symm) doomed.1, False.elim⟩

/-- A statement whose words are not looked up ends, if with an exception, with one that is reported. -/
theorem unready_polite {op : Op} (unknown : Unknown op) {g : CodeGenerator} (polite : Polite (assembledSoFar g))
    (unready : ¬ Ready op g) {rest : Gen Unit} (graceful : Graceful False rest) :
    Polite (bytesAfter ((do emitOp op; rest) g)) := by
  have evaluated := (operandsOf_graceful op).ends g
  cases done : operandsOf op g with
  | error e m =>
    rw [done] at evaluated
    have ended := (emitOp_dooms unknown).ended done
    have whole : (do emitOp op; rest) g = .error e m := by
      rw [bind_apply, ended]
    rw [whole, bytesAfter]
    exact .bind (Grown.polite evaluated.1 polite) fun _ => .error (evaluated.2 trivial)
  | ok u m =>
    rw [done] at evaluated
    have soFar := Grown.polite evaluated polite
    cases raised : assembledSoFar m with
    | ok a => exact (unready ⟨m, done, by rw [raised]; rfl⟩).elim
    | error e =>
      -- What the assembler raised at the operands is raised, whatever follows.
      have reported : e.Reported := soFar.reported e raised
      obtain ⟨-, ending⟩ := ends_doomed unknown done
      rw [bind_apply]
      cases emission : emitOp op g with
      | ok u g' =>
        rw [emission] at ending
        dsimp only
        rw [bytesAfter_error graceful (Grown.error ending raised)]
        exact .error reported
      | error e' g' =>
        rw [emission] at ending
        dsimp only
        rw [bytesAfter, Grown.error ending.1 raised]
        exact .error reported

/-- An emission whose words are known wherever they are looked up raises only what is reported. -/
theorem bytesAfter_polite : (all : List Step) → {g : CodeGenerator} → Polite (assembledSoFar g) →
    (∀ op h, ReachedIn all g op h → Unknown op → ¬ Ready op h) → Polite (bytesAfter (runSteps all g))
  | [], g, soFar, _ => .bind soFar fun _ => .ok _
  | s :: rest, g, soFar, sound => by
    have later (m : CodeGenerator) (first : s.emit g = .ok () m) (soFar : Polite (assembledSoFar m)) :
        Polite (bytesAfter (runSteps rest m)) :=
      bytesAfter_polite rest soFar fun op h reached => sound op h (reached.later first)
    by_cases unknown : s.Unknown
    · cases s with
      | op line o =>
        obtain ⟨m, noted⟩ := note_ok line g
        have grown := (@note_graceful True line).ends g
        rw [noted] at grown
        have here : ReachedIn (.op line o :: rest) g o m := ⟨[], line, rest, rfl, by simpa [runSteps] using noted⟩
        have polite := unready_polite unknown (Grown.polite grown soFar) (sound o m here unknown) (runSteps_graceful rest)
        have whole : runSteps (.op line o :: rest) g = (do emitOp o; runSteps rest) m := by
          rw [runSteps, Step.emit, bind_assoc, bind_apply, noted]
        rwa [whole]
      | _ => exact unknown.elim
    · have graceful : Graceful True s.emit := (step_graceful s).mono fun _ => unknown
      have ending := graceful.ends g
      rw [runSteps, bind_apply]
      cases done : s.emit g with
      | ok u m =>
        rw [done] at ending
        exact later m done (Grown.polite ending soFar)
      | error e m =>
        rw [done] at ending
        exact .bind (Grown.polite ending.1 soFar) fun _ => .error (ending.2 trivial)

/-- An unknown word that is looked up raises what is not reported. -/
theorem bytesAfter_doomed {all : List Step} {g h : CodeGenerator} {op : Op} (reached : ReachedIn all g op h)
    (unknown : Unknown op) (ready : Ready op h) : ∃ e, bytesAfter (runSteps all g) = .error e ∧ ¬ e.Reported := by
  obtain ⟨before, line, after, rfl, ran⟩ := reached
  obtain ⟨m, evaluated, taken⟩ := ready
  obtain ⟨a, taken⟩ := exists_of_isOk taken
  have whole : runSteps (before ++ .op line op :: after) g = (do emitOp op; runSteps after) h := by
    obtain ⟨_, n, first, noted⟩ := bind_ok.mp ran
    rw [runSteps_append, bind_apply, first, runSteps, Step.emit, bind_assoc]
    dsimp only
    rw [bind_apply, noted]
  rw [whole, bind_apply]
  obtain ⟨doomed, ending⟩ := ends_doomed unknown evaluated
  cases done : emitOp op h with
  | ok u g' =>
    rw [done] at doomed ending
    obtain ⟨c, rest, script, bad⟩ := doomed
    obtain ⟨key, raised⟩ := unknown_perform a bad
    have soFar : assembledSoFar g' = .error (.keyError key) := by
      rw [assembledSoFar, ending.deterministic, script, Assembler.run_append]
      change (assembledSoFar m >>= fun b => b.run (c :: rest)) = _
      rw [taken, ok_bind, Assembler.run, raised]
      rfl
    exact ⟨_, bytesAfter_error (runSteps_graceful after) soFar, id⟩
  | error e g' =>
    rw [done] at doomed ending
    have soFar : assembledSoFar g' = .ok a := by
      rw [assembledSoFar, ending.1.deterministic, doomed.1]
      exact taken
    dsimp only
    refine ⟨e, ?_, doomed.2⟩
    rw [bytesAfter, soFar]
    rfl

/-! ### Before and after the emission -/

theorem prepare_polite (opts : Options) (p : Program) : Polite (prepare opts p) := by
  have datum (g : CodeGenerator) (off : Int) (op : Op) : Polite (collectDatum g off op) := by
    cases op with
    | dataAlloc name size =>
      refine .bind ?_ fun n => .ok _
      unfold allocSize
      split
      · exact .ok _
      · split
        · exact .ok _
        · exact .error trivial
    | dataConst name value => cases value <;> exact .ok _
    | _ => exact .ok _
  have data (stmts : List Stmt) (g : CodeGenerator) (off : Int) : Polite (collectData stmts g off) := by
    induction stmts generalizing g off with
    | nil => exact .ok _
    | cons s rest ih =>
      cases s with
      | fnDef => exact ih g off
      | op line op => exact .bind (datum g off op) fun placed => ih _ _
  exact .bind (data _ _ _) fun _ => .ok _

theorem link_polite (a : Assembler) (offs : Dict Int) : Polite (a.link offs) := by
  have field (r : Reloc) : Polite (Assembler.displacement offs r) := by
    unfold Assembler.displacement
    split
    · exact .error trivial
    · exact .s32 _
  have all (rs : List Reloc) (code : List X64.Byte) : Polite (Assembler.patchAll offs rs code) := by
    induction rs generalizing code with
    | nil => exact .ok _
    | cons r rs ih => exact .bind (field r) fun bytes => ih _
  exact .bind (all _ _) fun _ => .ok _

theorem runAsserts_polite (g : CodeGenerator) (a : Assembler) : Polite (runAsserts g a) := by
  have forM {α : Type} {f : α → Except PyErr Unit} (each : ∀ x, Polite (f x)) (xs : List α) : Polite (xs.forM f) := by
    induction xs with
    | nil => exact .ok _
    | cons x xs ih => exact .bind (each x) fun _ => ih
  refine .bind (forM (fun s => ?_) _) fun _ => forM (fun s => ?_) _
  · unfold checkBytes
    dsimp only
    repeat' split
    all_goals first | exact .ok _ | exact .error trivial
  · unfold checkSize
    dsimp only
    repeat' split
    all_goals first | exact .ok _ | exact .error trivial

/-- The sizes and offsets in the headers of the image have room in their fields. -/
def Fits (opts : Options) (g : CodeGenerator) (a : Assembler) : Prop :=
  if g.baremetal then 16467 + (if a.code = [] then Image.STOP else a.code).length + g.dataBytes.length < 2 ^ 32
  else if opts.debug then
    Image.lineLength "source.aclm" (Image.symbolRows (sortedLabels a)) < 2 ^ 32 ∧
      Image.codeBase + a.code.length < 2 ^ 64 ∧
      Image.sectionHeaders a.code.length g.dataBytes.length
        (4 + Image.lineLength "source.aclm" (Image.symbolRows (sortedLabels a))) < 2 ^ 64
  else if opts.wx then
    Image.LOAD_VADDR + Image.align Image.PAGE (0x1000 + a.code.length) < 2 ^ 64 ∧ g.dataBytes.length < 2 ^ 64
  else 120 + a.code.length + g.dataBytes.length < 2 ^ 64

theorem writeImage_packs (opts : Options) (g : CodeGenerator) (a : Assembler) :
    Image.Packs (Fits opts g a) (writeImage opts g a) := by
  unfold Fits writeImage
  split
  · exact Image.kernel_packs _ _
  · split
    · exact Image.symtab_packs _ _ _
    · split
      · exact Image.wx_packs _ _
      · exact Image.exe_packs _ _

/-! ### The exception of the generator -/

/-- A statement of the program that the emission reaches, and the generator there. -/
def Reached (opts : Options) (p : Program) (op : Op) (h : CodeGenerator) : Prop :=
  ∃ g, prepare opts p = .ok g ∧ ReachedIn (programSteps p.statements) g op h

/-- What is left to do is to write the image. -/
def Checked (opts : Options) (p : Program) (g : CodeGenerator) (linked : Assembler) : Prop :=
  ∃ a, emitted opts p = .ok (g, a) ∧ a.link (targetOffsets opts g a) = .ok linked ∧ runAsserts g linked = .ok ()

theorem generate_checked {opts : Options} {p : Program} {g : CodeGenerator} {linked : Assembler}
    (checked : Checked opts p g linked) : generate opts p = writeImage opts g linked := by
  obtain ⟨a, emission, joined, passed⟩ := checked
  unfold generate
  rw [emission, ok_bind]
  dsimp only
  rw [joined, ok_bind, passed]
  rfl

/-- Every exception of the generator is reported exactly if no statement that is reached has an unknown word that is
looked up, and the image has room for what it is made of. -/
theorem reported_iff (opts : Options) (p : Program) : (∀ e, generate opts p = .error e → e.Reported) ↔
    (∀ op h, Reached opts p op h → Unknown op → ¬ Ready op h) ∧
      ∀ g linked, Checked opts p g linked → Fits opts g linked := by
  constructor
  -- A failure that escapes comes from an unknown form that is emitted, or from a field that is too small for its value.
  · intro reported
    refine ⟨fun op h ⟨g, prepared, reached⟩ unknown ready => ?_, fun g linked checked => ?_⟩
    · obtain ⟨e, raised, escapes⟩ := bytesAfter_doomed reached unknown ready
      refine escapes (reported e ?_)
      rw [generate, emitted_eq, prepared, ok_bind, raised]
      rfl
    · by_contra full
      obtain ⟨msg, raised⟩ := (writeImage_packs opts g linked).full full
      exact reported _ ((generate_checked checked).trans raised)
  · rintro ⟨sound, room⟩ e raised
    -- The stages in turn: what is emitted, the link, the asserted bytes and the image.
    have emission : Polite (emitted opts p) := by
      rw [emitted_eq]
      cases prepared : prepare opts p with
      | error e => exact .error ((prepare_polite opts p).reported e prepared)
      | ok g =>
        rw [ok_bind]
        refine bytesAfter_polite _ ?_ fun op h reached => sound op h ⟨g, prepared, reached⟩
        rw [assembledSoFar, (prepare_ok prepared).1]
        exact .ok _
    cases emits : emitted opts p with
    | error e' =>
      rw [generate, emits] at raised
      cases raised
      exact emission.reported _ emits
    | ok done =>
      obtain ⟨g, a⟩ := done
      cases joins : a.link (targetOffsets opts g a) with
      | error e' =>
        rw [generate, emits, ok_bind] at raised
        dsimp only at raised
        rw [joins] at raised
        cases raised
        exact (link_polite _ _).reported _ joins
      | ok linked =>
        cases checks : runAsserts g linked with
        | error e' =>
          rw [generate, emits, ok_bind] at raised
          dsimp only at raised
          rw [joins, ok_bind, checks] at raised
          cases raised
          exact (runAsserts_polite _ _).reported _ checks
        | ok =>
          have checked : Checked opts p g linked := ⟨a, emits, joins, checks⟩
          obtain ⟨image, written⟩ := (writeImage_packs opts g linked).written (room g linked checked)
          rw [generate_checked checked, written] at raised
          cases raised

/-- A condition that the parser lets through and the table does not have. -/
theorem reported_wrong : ∃ p, Compiler.programOf .ascii "~out\njump_if wild ~out".toList "/f".toList = .ok p ∧
    ∃ e, generate ⟨false, false, false⟩ p = .error e ∧ ¬ e.Reported := by
  have found : (match Compiler.programOf .ascii "~out\njump_if wild ~out".toList "/f".toList with
      | .ok p => decide (generate ⟨false, false, false⟩ p = .error (.keyError "wild"))
      | .error _ => false) = true := by decide +kernel
  split at found
  · next p program => exact ⟨p, program, _, of_decide_eq_true found, id⟩
  · cases found

end Aclm.Codegen
