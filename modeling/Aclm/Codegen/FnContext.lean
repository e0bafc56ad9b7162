import Aclm.Codegen.Failures

/-! The context in which a statement is compiled: whether it stands in a function, and the locals and arguments that its
names can mean. `_emit_fn` sets it before a body and clears it behind one. -/

set_option autoImplicit false

namespace Aclm

open X64 (Reg)

/-- `in_fn`, `fn_locals` and `fn_args` -/
structure FnContext where
  inFn : Bool
  fnLocals : Dict Int
  fnArgs : Dict Reg
  deriving DecidableEq, Repr

namespace FnContext

/-- Outside all functions. -/
def top : FnContext := ⟨false, [], []⟩

/-- In the body of a function. -/
def body (args : List String) (locals : List (String × Int)) : FnContext :=
  ⟨true, (Codegen.placeLocals locals ([], 0)).1, Codegen.bindArgs args⟩

end FnContext

def CodeGenerator.context (g : CodeGenerator) : FnContext := ⟨g.inFn, g.fnLocals, g.fnArgs⟩

namespace Codegen

open Encoder

/-! ### What statements leave alone -/

/-- Code may have been added, but no line to the map of the listing. -/
structure Unnoted (g g' : CodeGenerator) : Prop where
  teachMap : g'.teachMap = g.teachMap
  listing : g'.listing = g.listing
  deterministic : g'.deterministic = g.deterministic
  script : g.script <+: g'.script

/-- The context is the same, too. -/
structure Frozen (g g' : CodeGenerator) : Prop extends Unnoted g g' where
  context : g'.context = g.context

namespace Frozen

variable {g g' g'' : CodeGenerator}

theorem same (teachMap : g'.teachMap = g.teachMap) (listing : g'.listing = g.listing)
    (deterministic : g'.deterministic = g.deterministic) (script : g'.script = g.script)
    (context : g'.context = g.context) : Frozen g g' :=
  ⟨⟨teachMap, listing, deterministic, script ▸ List.prefix_refl _⟩, context⟩

theorem refl (g : CodeGenerator) : Frozen g g := .same rfl rfl rfl rfl rfl

theorem trans (first : Frozen g g') (second : Frozen g' g'') : Frozen g g'' :=
  ⟨⟨second.teachMap.trans first.teachMap, second.listing.trans first.listing,
    second.deterministic.trans first.deterministic, first.script.trans second.script⟩, second.context.trans first.context⟩

theorem calls (g : CodeGenerator) (calls : List Call) : Frozen g (g.withScript (g.script ++ calls)) :=
  ⟨⟨rfl, rfl, rfl, List.prefix_append _ _⟩, rfl⟩

end Frozen

theorem Change.frozen {g g' : CodeGenerator} (change : Change g g') : Frozen g g' := by
  cases change with
  | calls all => exact .calls g _
  | reserved name bytes =>
    unfold Codegen.reserved
    split
    · exact .refl g
    · exact .same rfl rfl rfl rfl rfl
  | _ => exact .same rfl rfl rfl rfl rfl

theorem emitOp_frozen {op : Op} {g g' : CodeGenerator} (ok : emitOp op g = .ok () g') : Frozen g g' :=
  emitOp_kept .refl .trans Change.frozen (fun g _ => .calls g _) ok

theorem emitEnd_frozen {stmts : List Stmt} {g g' : CodeGenerator} (ok : emitEnd stmts g = .ok () g') : Frozen g g' := by
  rw [emitEnd, get_bind_ok] at ok
  split at ok
  · rw [(pure_ok.mp ok).2]
    exact .refl g
  · rw [asm_ok.mp ok]
    exact .calls g _

theorem note_context {line : Int} {g g' : CodeGenerator} (ok : note line g = .ok () g') : g'.context = g.context := by
  rw [note, get_bind_ok] at ok
  split at ok
  · rw [modify_ok.mp ok]
    rfl
  · rw [(pure_ok.mp ok).2]

/-! ### The context after a step -/

/-- The context that the generator has after a step. -/
def Step.context : FnContext → Step → FnContext
  | _, .enter _ _ args locals => .body args locals
  | _, .leave => .top
  | context, _ => context

theorem Step.emit_context (s : Step) {g g' : CodeGenerator} (ok : s.emit g = .ok () g') :
    g'.context = s.context g.context := by
  cases s with
  | op line op =>
    obtain ⟨_, m, noted, emission⟩ := bind_ok.mp ok
    exact (emitOp_frozen emission).context.trans (note_context noted)
  | enter line name args locals =>
    obtain ⟨_, m, noted, entry⟩ := bind_ok.mp ok
    simp only [enterFn, asm_bind_ok, modify_ok] at entry
    rw [entry]
    rfl
  | leave =>
    simp only [Step.emit, leaveFn, modify_bind_ok, asm_ok] at ok
    rw [ok]
    rfl
  | finish stmts => exact (emitEnd_frozen ok).context

theorem placeDatum_frozen (g : CodeGenerator) (name : String) (off : Int) (bytes : List X64.Byte) :
    Frozen g (placeDatum g name off bytes) := .same rfl rfl rfl rfl rfl

theorem collectData_frozen {g g' : CodeGenerator} {stmts : List Stmt} {off : Int} (ok : collectData stmts g off = .ok g') :
    Frozen g g' := by
  have datum {g g' : CodeGenerator} {off off' : Int} {op : Op} (ok : collectDatum g off op = .ok (g', off')) :
      Frozen g g' := by
    cases op with
    | dataAlloc name size =>
      obtain ⟨n, -, placed⟩ := bind_eq_ok.mp ok
      cases placed
      exact placeDatum_frozen g name off _
    | dataConst name value => cases value <;> cases ok <;> exact .same rfl rfl rfl rfl rfl
    | _ => cases ok; exact .same rfl rfl rfl rfl rfl
  induction stmts generalizing g off with
  | nil => cases ok; exact .refl _
  | cons s rest ih =>
    cases s with
    | fnDef => exact ih ok
    | op line op =>
      obtain ⟨placed, first, rest⟩ := bind_eq_ok.mp ok
      exact (datum first).trans (ih rest)

theorem addCell_frozen (name : String) (n : Nat) (needed : Bool) (g : CodeGenerator) : Frozen g (addCell name n needed g) := by
  cases needed with
  | false => exact .refl g
  | true => exact placeDatum_frozen g name _ _

/-- Before the code there is no context and no map. -/
theorem prepare_fresh {opts : Options} {p : Program} {g : CodeGenerator} (ok : prepare opts p = .ok g) :
    g.context = .top ∧ g.teachMap = [] ∧ g.listing = opts.listing := by
  obtain ⟨m, collected, rest⟩ := bind_eq_ok.mp ok
  cases rest
  have data := collectData_frozen collected
  have cells := (addCell_frozen "__timespec" 16 (p.statements.any pulseStmt)
    { m with deterministic := p.statements.any deterministicStmt }).trans
    (addCell_frozen "__thr_futex" 24 (p.statements.any threadStmt) _)
  exact ⟨cells.context.trans data.context, cells.teachMap.trans data.teachMap, cells.listing.trans data.listing⟩

theorem runSteps_context {steps : List Step} {g g' : CodeGenerator} (ok : runSteps steps g = .ok () g') :
    g'.context = steps.foldl Step.context g.context := by
  induction steps generalizing g with
  | nil => rw [(pure_ok.mp ok).2, List.foldl_nil]
  | cons s steps ih =>
    obtain ⟨_, m, first, later⟩ := bind_ok.mp ok
    rw [ih later, s.emit_context first, List.foldl_cons]

/-! ### The context of the source -/

/-- The contexts of the function bodies that are open, the innermost first. -/
def Step.opens : List FnContext → Step → List FnContext
  | bodies, .enter _ _ args locals => .body args locals :: bodies
  | bodies, .leave => bodies.tail
  | bodies, _ => bodies

/-- The bodies that are open behind some steps. -/
def openBodies (before : List Step) : List FnContext := before.foldl Step.opens []

/-- The context of the function whose body the next step is in, if any. -/
def enclosing (before : List Step) : FnContext := (openBodies before).headD .top

mutual

/-- A statement is compiled within the bodies it stands in. -/
theorem stmtSteps_opens : (s : Stmt) → (bodies : List FnContext) → (stmtSteps s).foldl Step.opens bodies = bodies
  | .op _ _, _ => rfl
  | .fnDef _ _ _ body _, bodies => by
    rw [stmtSteps, List.cons_append, List.foldl_cons, List.foldl_append, steps_opens body]
    rfl

theorem steps_opens : (stmts : List Stmt) → (bodies : List FnContext) → (steps stmts).foldl Step.opens bodies = bodies
  | [], _ => rfl
  | s :: rest, bodies => by rw [steps, List.foldl_append, stmtSteps_opens s, steps_opens rest]

end

theorem openBodies_append (before steps : List Step) : openBodies (before ++ steps) = steps.foldl Step.opens (openBodies before) :=
  List.foldl_append

theorem enclosing_stmt (before : List Step) (s : Stmt) : enclosing (before ++ stmtSteps s) = enclosing before := by
  rw [enclosing, openBodies_append, stmtSteps_opens, enclosing]

/-- Every open body is one of a function. -/
theorem openBodies_inFn {before : List Step} {context : FnContext} (member : context ∈ openBodies before) :
    context.inFn = true := by
  induction before using List.reverseRecOn with
  | nil => exact absurd member List.not_mem_nil
  | append_singleton before s ih =>
    rw [openBodies_append, List.foldl_cons, List.foldl_nil] at member
    cases s with
    | enter line name args locals =>
      rcases List.mem_cons.mp member with rfl | outer
      · rfl
      · exact ih outer
    | leave => exact ih (List.mem_of_mem_tail member)
    | op line op => exact ih member
    | finish stmts => exact ih member

/-! ### Functions within functions -/

/-- The emission of the program gets behind its first steps. -/
def GetsTo (opts : Options) (p : Program) (before after : List Step) (g : CodeGenerator) : Prop :=
  programSteps p.statements = before ++ after ∧ ∃ g₀, prepare opts p = .ok g₀ ∧ runSteps before g₀ = .ok () g

/-- A function that is defined in the body of another is emitted to its end. -/
def InnerFnEmitted (opts : Options) (p : Program) : Prop :=
  ∃ before after g, GetsTo opts p before (.leave :: after) g ∧ 2 ≤ (openBodies before).length

/-- The emission of every function leaves the context it found, and the context of every statement is that of the body it
stands in. -/
structure ContextRestored (opts : Options) (p : Program) : Prop where
  fn : ∀ before after g line name args body locals g',
    GetsTo opts p before (stmtSteps (.fnDef line name args body locals) ++ after) g →
    emit (.fnDef line name args body locals) g = .ok () g' → g'.context = g.context
  here : ∀ before after g, GetsTo opts p before after g → g.context = enclosing before

/-- The context is that of the open body as long as no inner function has ended. -/
theorem context_enclosing {before : List Step}
    (outermost : ∀ first rest, before = first ++ .leave :: rest → (openBodies first).length ≤ 1) :
    before.foldl Step.context .top = enclosing before := by
  induction before using List.reverseRecOn with
  | nil => rfl
  | append_singleton before s ih =>
    have so_far := ih fun first rest split => outermost first (rest ++ [s]) (by rw [split, List.append_assoc]; rfl)
    rw [List.foldl_append, so_far]
    unfold enclosing
    rw [openBodies_append]
    cases s with
    | enter line name args locals => rfl
    | leave =>
      -- Nothing is open behind the end of a function that is in no other.
      have one := outermost before [] rfl
      have none : (openBodies before).tail = [] := List.eq_nil_of_length_eq_zero (by rw [List.length_tail]; omega)
      simp only [List.foldl_cons, List.foldl_nil, Step.context, Step.opens, none]
      rfl
    | op line op => rfl
    | finish stmts => rfl

theorem contextRestored_iff_inner (opts : Options) (p : Program) : ContextRestored opts p ↔ ¬ InnerFnEmitted opts p := by
  constructor
  · rintro restored ⟨before, after, g, ⟨split, g₀, prepared, ran⟩, inner⟩
    obtain ⟨m, left⟩ : ∃ m, Step.leave.emit g = .ok () m := ⟨_, rfl⟩
    have behind : GetsTo opts p (before ++ [.leave]) after m := by
      refine ⟨by rw [split, List.append_assoc]; rfl, g₀, prepared, ?_⟩
      rw [runSteps_append]
      exact bind_ok.mpr ⟨(), g, ran, bind_ok.mpr ⟨(), m, left, rfl⟩⟩
    -- Behind the end of the inner function the context is cleared, and the outer body is still open.
    have cleared : m.context = .top := Step.leave.emit_context left
    have still := restored.here _ _ _ behind
    rw [cleared, enclosing, openBodies_append] at still
    cases bodies : openBodies before with
    | nil => simp [bodies] at inner
    | cons body outer =>
      cases outer with
      | nil => simp [bodies] at inner
      | cons context rest =>
        have inFn : context.inFn = true := openBodies_inFn (by rw [bodies]; simp)
        have same : FnContext.top = context := by rwa [bodies] at still
        rw [← same] at inFn
        cases inFn
  · intro outermost
    have here : ∀ before after g, GetsTo opts p before after g → g.context = enclosing before := by
      rintro before after g ⟨split, g₀, prepared, ran⟩
      rw [runSteps_context ran, (prepare_fresh prepared).1]
      refine context_enclosing fun first rest inside => ?_
      by_contra deep
      subst inside
      rw [runSteps_append] at ran
      obtain ⟨_, m, before, -⟩ := bind_ok.mp ran
      exact outermost ⟨first, rest ++ after, m, ⟨by rw [split]; simp, g₀, prepared, before⟩, by omega⟩
    refine ⟨fun before after g line name args body locals g' gets ok => ?_, here⟩
    obtain ⟨split, g₀, prepared, ran⟩ := gets
    have behind : GetsTo opts p (before ++ stmtSteps (.fnDef line name args body locals)) after g' := by
      refine ⟨by rw [split, List.append_assoc], g₀, prepared, ?_⟩
      rw [runSteps_append]
      exact bind_ok.mpr ⟨(), g, ran, (emit_steps _) ▸ ok⟩
    rw [here _ _ _ behind, here _ _ _ ⟨split, g₀, prepared, ran⟩, enclosing_stmt]

/-! ### Programs that compile -/

/-- A function is defined in the body of this one. -/
def hasInner : Stmt → Bool
  | .fnDef _ _ _ body _ => body.any isFn
  | .op .. => false

/-- Steps of single statements open no body. -/
theorem flat_opens {body : List Stmt} (flat : body.any isFn = false) {first rest : List Step}
    (split : steps body = first ++ rest) (bodies : List FnContext) : first.foldl Step.opens bodies = bodies := by
  induction body generalizing first with
  | nil =>
    rw [(List.append_eq_nil_iff.mp split.symm).1]
    rfl
  | cons s body ih =>
    rw [List.any_cons, Bool.or_eq_false_iff] at flat
    cases s with
    | fnDef => cases flat.1
    | op line op =>
      cases first with
      | nil => rfl
      | cons step first =>
        rw [steps, stmtSteps, List.singleton_append, List.cons_append, List.cons.injEq] at split
        obtain ⟨rfl, later⟩ := split
        rw [List.foldl_cons]
        exact ih flat.2 later

/-- Without inner functions at most one body is open. -/
theorem stmt_opens_le {s : Stmt} (flat : hasInner s = false) {first rest : List Step}
    (split : stmtSteps s = first ++ rest) : (openBodies first).length ≤ 1 := by
  cases s with
  | op line op =>
    rcases List.singleton_eq_append_iff.mp split with ⟨rfl, -⟩ | ⟨rfl, -⟩ <;> exact Nat.zero_le 1
  | fnDef line name args body locals =>
    cases first with
    | nil => exact Nat.zero_le 1
    | cons step first =>
      rw [stmtSteps, List.cons_append, List.cons_append, List.cons.injEq] at split
      obtain ⟨rfl, later⟩ := split
      rcases List.append_eq_append_iff.mp later with ⟨last, rfl, ends⟩ | ⟨more, inside, -⟩
      · rw [openBodies, List.foldl_cons, List.foldl_append, steps_opens]
        rcases List.singleton_eq_append_iff.mp ends with ⟨rfl, -⟩ | ⟨rfl, -⟩
        · exact Nat.le_refl 1
        · exact Nat.zero_le 1
      · rw [openBodies, List.foldl_cons, flat_opens flat inside]
        exact Nat.le_refl 1

theorem openBodies_stmt (s : Stmt) (steps : List Step) : openBodies (stmtSteps s ++ steps) = openBodies steps := by
  rw [openBodies_append, openBodies, stmtSteps_opens, openBodies]

theorem steps_opens_le {stmts : List Stmt} (flat : stmts.any hasInner = false) {first rest : List Step}
    (split : steps stmts = first ++ rest) : (openBodies first).length ≤ 1 := by
  induction stmts generalizing first with
  | nil =>
    rw [(List.append_eq_nil_iff.mp split.symm).1]
    exact Nat.zero_le 1
  | cons s stmts ih =>
    rw [List.any_cons, Bool.or_eq_false_iff] at flat
    rw [steps] at split
    rcases List.append_eq_append_iff.mp split with ⟨more, rfl, later⟩ | ⟨more, inside, -⟩
    · rw [openBodies_stmt]
      exact ih flat.2 later
    · exact stmt_opens_le flat.1 inside

theorem steps_append (first rest : List Stmt) : steps (first ++ rest) = steps first ++ steps rest := by
  induction first with
  | nil => rfl
  | cons s first ih => rw [List.cons_append, steps, ih, steps, List.append_assoc]

/-- The end of an inner function stands where two bodies are open. -/
theorem inner_leave {s : Stmt} (inner : hasInner s = true) :
    ∃ first rest, stmtSteps s = first ++ .leave :: rest ∧ (openBodies first).length = 2 := by
  cases s with
  | op => cases inner
  | fnDef line name args body locals =>
    obtain ⟨s, member, isFn⟩ := List.any_eq_true.mp inner
    obtain ⟨front, back, rfl⟩ := List.append_of_mem member
    cases s with
    | op => cases isFn
    | fnDef line' name' args' body' locals' =>
      refine ⟨.enter line name args locals :: steps front ++ .enter line' name' args' locals' :: steps body',
        steps back ++ [.leave], ?_, ?_⟩
      · simp [stmtSteps, steps_append, steps]
      · rw [openBodies, List.foldl_append, List.foldl_cons, steps_opens, List.foldl_cons, steps_opens]
        rfl

/-- Some statement among them has an inner function exactly if two bodies are open at the end of one. -/
theorem steps_inner_iff (stmts : List Stmt) : stmts.any hasInner = true ↔
    ∃ first rest, steps stmts = first ++ .leave :: rest ∧ 2 ≤ (openBodies first).length := by
  constructor
  · intro inner
    obtain ⟨s, member, within⟩ := List.any_eq_true.mp inner
    obtain ⟨front, back, rfl⟩ := List.append_of_mem member
    obtain ⟨first, rest, split, two⟩ := inner_leave within
    refine ⟨steps front ++ first, rest ++ steps back, ?_, ?_⟩
    · simp [steps_append, steps, split]
    · rw [openBodies, List.foldl_append, steps_opens, ← openBodies, two]
  · rintro ⟨first, rest, split, two⟩
    by_contra flat
    have one := steps_opens_le (Bool.eq_false_iff.mpr flat) split
    omega

/-- The main program has no functions. -/
theorem programSteps_inner_iff (stmts : List Stmt) : stmts.any hasInner = true ↔
    ∃ first rest, programSteps stmts = first ++ .leave :: rest ∧ 2 ≤ (openBodies first).length := by
  have fns : stmts.any hasInner = true ↔ (stmts.filter isFn).any hasInner = true := by
    rw [List.any_filter]
    refine iff_of_eq (congrArg (· = true) (congrArg stmts.any (funext fun s => ?_)))
    cases s with
    | op => rfl
    | fnDef => exact (Bool.true_and _).symm
  have main (first : List Step) : openBodies (steps (stmts.filter fun s => !isFn s) ++ .finish stmts :: first) = openBodies first := by
    rw [openBodies, List.foldl_append, steps_opens]
    rfl
  rw [fns, steps_inner_iff]
  constructor
  · rintro ⟨first, rest, split, two⟩
    refine ⟨steps (stmts.filter fun s => !isFn s) ++ .finish stmts :: first, rest, ?_, by rwa [main]⟩
    rw [programSteps, split, List.append_assoc, List.cons_append]
  · rintro ⟨first, rest, split, two⟩
    rcases List.append_eq_append_iff.mp split with ⟨more, rfl, later⟩ | ⟨more, inside, -⟩
    · cases more with
      | nil => cases later
      | cons step more =>
        rw [List.cons_append, List.cons.injEq] at later
        obtain ⟨rfl, later⟩ := later
        rw [main] at two
        exact ⟨more, rest, later, two⟩
    · have flat : (stmts.filter fun s => !isFn s).any hasInner = false := by
        rw [List.any_filter, List.any_eq_false]
        intro s _
        cases s with
        | op => exact Bool.false_ne_true
        | fnDef => exact Bool.false_ne_true
      have one := steps_opens_le flat inside
      omega

/-- In a program that compiles, inner functions are emitted like all others. -/
theorem innerFnEmitted_iff {opts : Options} {p : Program} (compiled : (emitted opts p).isOk = true) :
    InnerFnEmitted opts p ↔ p.statements.any hasInner = true := by
  obtain ⟨⟨g, a⟩, ok⟩ := exists_of_isOk compiled
  obtain ⟨g₀, prepared, emission, -⟩ := emitted_ok.mp ok
  rw [emitProgram_steps] at emission
  rw [programSteps_inner_iff]
  constructor
  · rintro ⟨before, after, m, ⟨split, -⟩, two⟩
    exact ⟨before, after, split, two⟩
  · rintro ⟨before, after, split, two⟩
    rw [split, runSteps_append] at emission
    obtain ⟨_, m, first, -⟩ := bind_ok.mp emission
    exact ⟨before, after, m, ⟨split, g₀, prepared, first⟩, two⟩

/-- Every function leaves the context it found, and every statement is compiled in the context of its function, exactly if
no function within a function is emitted to its end: in a program that compiles, if none is defined there. -/
theorem contextRestored_iff (opts : Options) (p : Program) : (ContextRestored opts p ↔ ¬ InnerFnEmitted opts p) ∧
    ((emitted opts p).isOk = true → (ContextRestored opts p ↔ p.statements.any hasInner = false)) := by
  refine ⟨contextRestored_iff_inner opts p, fun compiled => ?_⟩
  rw [contextRestored_iff_inner, innerFnEmitted_iff compiled, Bool.not_eq_true]

/-- A function in the body of another: the `ret` behind it is compiled outside all functions. -/
theorem contextRestored_wrong : ∃ p, Compiler.programOf .ascii
      "fn:outer\nfn:inner\nret\nend:fn\nret\nend:fn".toList "/f".toList = .ok p ∧
    (generate ⟨false, false, false⟩ p).isOk = true ∧ ¬ ContextRestored ⟨false, false, false⟩ p := by
  have found : (match Compiler.programOf .ascii "fn:outer\nfn:inner\nret\nend:fn\nret\nend:fn".toList "/f".toList with
      | .ok p => (generate ⟨false, false, false⟩ p).isOk && (emitted ⟨false, false, false⟩ p).isOk &&
          p.statements.any hasInner
      | .error _ => false) = true := by decide +kernel
  split at found
  · next p program =>
    rw [Bool.and_eq_true, Bool.and_eq_true] at found
    obtain ⟨⟨image, compiled⟩, inner⟩ := found
    refine ⟨p, program, image, fun restored => ?_⟩
    exact (contextRestored_iff_inner _ p).mp restored ((innerFnEmitted_iff compiled).mpr inner)
  · cases found

end Codegen

end Aclm
