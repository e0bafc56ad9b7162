import Aclm.Codegen.TeachMap
import Aclm.Parser.Statements

/-! The places of the statements in the text are for the listing only. -/

set_option autoImplicit false

namespace Aclm.Codegen

/-! ### Before the code -/

theorem any_unlined {p : Stmt → Bool} (same : ∀ s : Stmt, p s.unlined = p s) (stmts : List Stmt) :
    (Stmt.unlinedAll stmts).any p = stmts.any p := by
  rw [Stmt.unlinedAll_eq, List.any_map]
  exact congrArg (stmts.any ·) (funext same)

mutual

theorem collectStruct_unlined : (s : Stmt) → (structs : Dict StructLayout) → collectStruct s.unlined structs = collectStruct s structs
  | .op _ o, structs => by cases o <;> rfl
  | .fnDef _ _ _ body _, structs => collectStructs_unlined body structs

theorem collectStructs_unlined : (stmts : List Stmt) → (structs : Dict StructLayout) →
    collectStructs (Stmt.unlinedAll stmts) structs = collectStructs stmts structs
  | [], _ => rfl
  | s :: rest, structs => by
    rw [Stmt.unlinedAll, collectStructs, collectStructs, collectStruct_unlined s, collectStructs_unlined rest]

end

theorem collectData_unlined (stmts : List Stmt) (g : CodeGenerator) (off : Int) :
    collectData (Stmt.unlinedAll stmts) g off = collectData stmts g off := by
  induction stmts generalizing g off with
  | nil => rfl
  | cons s rest ih =>
    cases s with
    | fnDef => exact ih g off
    | op line o =>
      rw [Stmt.unlinedAll, Stmt.unlined, collectData, collectData]
      exact congrArg _ (funext fun placed => ih placed.1 placed.2)

theorem prepare_unlined (opts : Options) (p : Program) : prepare opts ⟨Stmt.unlinedAll p.statements⟩ = prepare opts p := by
  have same {q : Stmt → Bool} (op : ∀ line o, q (.op 0 o) = q (.op line o))
      (fn : ∀ line name args body body' locals, q (.fnDef 0 name args body locals) = q (.fnDef line name args body' locals))
      (s : Stmt) : q s.unlined = q s := by
    cases s with
    | op line o => exact op line o
    | fnDef line name args body locals => exact fn line name args _ body locals
  have baremetal := @same baremetalStmt (fun _ o => by cases o <;> rfl) fun _ _ _ _ _ _ => rfl
  have deterministic := @same deterministicStmt (fun _ o => by cases o <;> rfl) fun _ _ _ _ _ _ => rfl
  have pulse := @same pulseStmt (fun _ o => by cases o <;> rfl) fun _ _ _ _ _ _ => rfl
  have thread := @same threadStmt (fun _ o => by cases o <;> rfl) fun _ _ _ _ _ _ => rfl
  simp only [prepare, any_unlined baremetal, any_unlined deterministic, any_unlined pulse, any_unlined thread,
    collectStructs_unlined, collectData_unlined]

/-! ### The code -/

def Step.unlined : Step → Step
  | .op _ o => .op 0 o
  | .enter _ name args locals => .enter 0 name args locals
  | .leave => .leave
  | .finish stmts => .finish (Stmt.unlinedAll stmts)

mutual

theorem stmtSteps_unlined : (s : Stmt) → stmtSteps s.unlined = (stmtSteps s).map Step.unlined
  | .op _ _ => rfl
  | .fnDef line name args body locals => by
    rw [Stmt.unlined, stmtSteps, stmtSteps, List.map_append, List.map_cons, steps_unlined body]
    rfl

theorem steps_unlined : (stmts : List Stmt) → steps (Stmt.unlinedAll stmts) = (steps stmts).map Step.unlined
  | [] => rfl
  | s :: rest => by
    rw [Stmt.unlinedAll, steps, steps, List.map_append, stmtSteps_unlined s, steps_unlined rest]

end

theorem programSteps_unlined (stmts : List Stmt) :
    programSteps (Stmt.unlinedAll stmts) = (programSteps stmts).map Step.unlined := by
  have kept (p : Stmt → Bool) (same : ∀ s : Stmt, p s.unlined = p s) :
      (Stmt.unlinedAll stmts).filter p = Stmt.unlinedAll (stmts.filter p) := by
    rw [Stmt.unlinedAll_eq, Stmt.unlinedAll_eq, List.filter_map]
    exact congrArg (fun q => (stmts.filter q).map Stmt.unlined) (funext same)
  have fn (s : Stmt) : isFn s.unlined = isFn s := by cases s <;> rfl
  rw [programSteps, programSteps, kept _ fn, kept _ fun s => by rw [fn], List.map_append, List.map_cons, steps_unlined,
    steps_unlined]
  rfl

theorem emitEnd_unlined (stmts : List Stmt) : emitEnd (Stmt.unlinedAll stmts) = emitEnd stmts := by
  have last : endsExit (Stmt.unlinedAll stmts) = endsExit stmts := by
    rw [endsExit, endsExit, Stmt.unlinedAll_eq, List.getLast?_map]
    cases stmts.getLast? with
    | none => rfl
    | some s => cases s with
      | fnDef => rfl
      | op line o => cases o with
        | sysCall num args => cases num <;> rfl
        | _ => rfl
  rw [emitEnd, emitEnd, last]

/-- Without a listing a step does the same wherever it stands. -/
theorem Step.emit_unlined (s : Step) {g : CodeGenerator} (quiet : g.listing = false) : s.unlined.emit g = s.emit g := by
  have noted (line : Int) : note line g = .ok () g := by
    change (if g.listing then _ else pure () : Gen Unit) g = _
    rw [quiet]
    rfl
  cases s with
  | op line o => rw [Step.unlined, Step.emit, Step.emit, bind_apply, bind_apply, noted, noted]
  | enter line name args locals => rw [Step.unlined, Step.emit, Step.emit, bind_apply, bind_apply, noted, noted]
  | leave => rfl
  | finish stmts => rw [Step.unlined, Step.emit, Step.emit, emitEnd_unlined]

theorem runSteps_unlined (steps : List Step) {g : CodeGenerator} (quiet : g.listing = false) :
    runSteps (steps.map Step.unlined) g = runSteps steps g := by
  induction steps generalizing g with
  | nil => rfl
  | cons s steps ih =>
    rw [List.map_cons, runSteps, runSteps, bind_apply, bind_apply, s.emit_unlined quiet]
    cases emission : s.emit g with
    | error e m => rfl
    | ok out m => exact ih ((s.emit_notes emission).listing.trans quiet)

theorem emitted_unlined {opts : Options} (quiet : opts.listing = false) (p : Program) :
    emitted opts ⟨Stmt.unlinedAll p.statements⟩ = emitted opts p := by
  rw [emitted_eq, emitted_eq, prepare_unlined, programSteps_unlined]
  cases prepared : prepare opts p with
  | error e => rfl
  | ok g =>
    rw [ok_bind, ok_bind]
    exact congrArg bytesAfter (runSteps_unlined _ ((prepare_fresh prepared).2.2.trans quiet))

/-- Without a listing the image of a program does not depend on the places of its statements. -/
theorem generate_unlined {opts : Options} (quiet : opts.listing = false) (p : Program) :
    generate opts ⟨Stmt.unlinedAll p.statements⟩ = generate opts p := by
  rw [generate, generate, emitted_unlined quiet]

end Aclm.Codegen
