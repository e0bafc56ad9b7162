import Aclm.Parser.Forms

/-! Statements of any kind, function definitions, and whole programs. -/

set_option autoImplicit false

namespace Aclm

namespace Parse

/-- Behind the first word of a statement and a colon. -/
def ofColon (form : Parse Op) : Parse Op := do
  colon
  form

/-- The statements by their first word. `str`, `mem` and `err` are other names for operations of other families. -/
def forms : Dict (Parse Op) :=
  [("cpu", ofColon (family "cpu" cpuForms)), ("data", ofColon dataForm), ("ram", ofColon (family "ram" ramForms)),
   ("sys", ofColon (family "sys" [("call", sysCall)])), ("stack", ofColon (family "stack" stackForms)), ("cmp", cmp),
   ("jump_if", jumpIf), ("goto", goto), ("call", call), ("ret", ret), ("blast", ofColon (family "blast" blastForms)),
   ("wire", ofColon (family "wire" wireForms)), ("trap", ofColon (family "trap" [("neg", do return .trapNeg (← label))])),
   ("cell", ofColon (family "cell" cellForms)), ("gate", ofColon (family "gate" gateForms)),
   ("pulse", ofColon (family "pulse" pulseForms)),
   ("target", ofColon (family "target" [("baremetal", bare .targetBaremetal)])), ("net", ofColon (family "net" netForms)),
   ("sig", ofColon (family "sig" [("action", sigAction), ("return", bare .sigReturn)])),
   ("thread", ofColon (family "thread" threadForms)), ("section", ofColon section'),
   ("assert", ofColon (family "assert" [("bytes", assertBytes), ("size", assertSize)])),
   ("metal", ofColon (family "metal" [("regs", bare .metalRegs), ("deterministic", bare .metalDeterministic)])),
   ("lock", ofColon (bare (.prefixedOp "lock"))), ("rep", ofColon (bare (.prefixedOp "rep"))), ("raw", ofColon raw),
   ("include", ofColon do return .includeFile (← expect .string).value),
   ("flag", ofColon (family "flag" [("setcc", flagSetcc), ("clear", bare .flagsClear), ("set", flagsSet)])),
   ("flags", ofColon (family "flag" [("setcc", flagSetcc), ("clear", bare .flagsClear), ("set", flagsSet)])),
   ("chip", ofColon (family "chip" chipForms)), ("port", ofColon (family "port" portForms)),
   ("vec", ofColon (family "vec" vecForms)),
   ("mem", ofColon (family "mem" [("set", ofAssign2 .blastFill), ("copy", ofAssign2 .blastCopy)])),
   ("str", ofColon (family "wire" (wireForms ++ [("print", wireEmit)]))),
   ("err", ofColon (family "err" [("check", do return .trapNeg (← label)), ("status", ofName .errStatus)])),
   ("struct", ofColon struct), ("local", ofColon local'), ("kernel", ofColon (family "kernel" kernelForms))]

def fnArgs : Nat → List String → Parse (List String)
  | 0, _ => exhausted
  | n + 1, args => do
    if (← kind) = .ident then fnArgs n (args ++ [← name]) else return args

/-- The body of a function up to its `end:fn`; its locals are kept apart. -/
def fnBody (statement : Parse Stmt) : Nat → List Stmt → List (String × Int) → Parse (List Stmt × List (String × Int))
  | 0, _, _ => exhausted
  | n + 1, body, locals => do
    if ← atWord "end" then
      endOf "fn"
      return (body, locals)
    if (← kind) = .eof then fail (.syntaxError "unclosed fn")
    match ← statement with
    | .op _ (.localDecl name size) =>
      skipNl
      fnBody statement n body (locals ++ [(name, size)])
    | stmt =>
      skipNl
      fnBody statement n (body ++ [stmt]) locals

def fnDef (line : Nat) (statement : Parse Stmt) : Parse Stmt := do
  colon
  let name ← name
  let args ← fnArgs ((← remaining) + 1) []
  skipNl
  let (body, locals) ← fnBody statement ((← remaining) + 1) [] []
  return .fnDef line name args body locals

/-- `_statement`, with the number of functions that can still be opened. -/
def statementIn : Nat → Parse Stmt
  | 0 => exhausted
  | n + 1 => do
    let t ← peek
    match t.kind with
    | .label =>
      let _ ← adv
      return .op t.line (.label t.value)
    | .ident =>
      if lower t.value = "fn" then
        let _ ← adv
        fnDef t.line (statementIn n)
      else match forms.get? (lower t.value) with
        | some form =>
          let _ ← adv
          return .op t.line (← form)
        | none => failAt t s!"unknown statement '{lower t.value}'"
    | _ => failAt t "expected statement"

def statement : Parse Stmt := do statementIn ((← remaining) + 1)

/-- A statement is what the form of its first word makes of the tokens behind it. -/
theorem statement_run {self : Parser} {t : Tok} {rest more : List Tok} {form : Parse Op} {op : Op} (kind : t.kind = .ident)
    (other : lower t.value ≠ "fn") (found : forms.get? (lower t.value) = some form) (ran : form self rest = .ok (op, more)) :
    statement self (t :: rest) = .ok (.op t.line op, more) := by
  rw [statement, bind_run (rfl : remaining self (t :: rest) = _), statementIn, bind_run peek_cons, kind]
  simp only [if_neg other, found]
  rw [bind_run (adv_cons (by simp [kind])), bind_run ran, pure_run]

/-- The rest of the line, where that is a mode. -/
def skipLine : Parse Unit := fun _ toks => .ok ((), toks.dropWhile fun t => t.kind ≠ .newline ∧ t.kind ≠ .eof)

def statements : Nat → List Stmt → Parse (List Stmt)
  | 0, _ => exhausted
  | n + 1, stmts => do
    skipNl
    if (← kind) = .eof then return stmts
    if (← atWord "mode") ∨ (← atWord "@mode") then
      skipLine
      statements n stmts
    else
      let stmt ← statement
      statements n (stmts ++ [stmt])

end Parse

/-- `parse` -/
def Parser.parse (self : Parser) (toks : List Tok) : Except PyErr Program :=
  match Parse.statements (toks.length + 1) [] self toks with
  | .ok (stmts, _) => .ok ⟨stmts⟩
  | .error e => .error e

end Aclm
