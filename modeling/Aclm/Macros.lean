import Aclm.Expansion
import Aclm.Text

/-! `expand_macros`: the definitions are taken out of the text, and their calls replaced in passes over its lines. -/

set_option autoImplicit false

namespace Aclm.Macros

open Text

variable (U : CharClasses)

/-- The parameters of a definition, and the lines of its body. -/
structure Macro where
  args : List Text
  body : List Text
  deriving DecidableEq, Repr

/-! ### Definitions -/

/-- `^\s*macro:\s*([A-Za-z_][\w]*)\s*(.*)$`: the name and the words behind it. -/
def macroStart (line : Text) : Option (String × List Text) :=
  match lstrip line with
  | 'm' :: 'a' :: 'c' :: 'r' :: 'o' :: ':' :: s => (ident U (lstrip s)).map fun (name, rest) => (name, split rest)
  | _ => none

/-- `^\s*end:macro\s*$` -/
def macroEnd (line : Text) : Bool := lstrip (rstrip line) = "end:macro".toList

/-- A definition whose end has not been read yet. -/
structure Opened where
  name : String
  defLine : Nat
  target : Macro

/-- `parse_defs`, from a line on, inside a definition or outside: the definitions and the lines outside them. -/
def parseDefs (filename : String) : Nat → Option Opened → Dict Macro → List Text → Except PyErr (Dict Macro × List Text)
  | _, none, macros, [] => .ok (macros, [])
  | _, some d, _, [] => .error (.systemExit s!"{filename}:{d.defLine}: macro '{d.name}': missing end:macro")
  | n, some d, macros, line :: lines =>
    if macroEnd line then parseDefs filename (n + 1) none (macros.set d.name d.target) lines
    else parseDefs filename (n + 1) (some { d with target := { d.target with body := d.target.body ++ [line] } }) macros lines
  | n, none, macros, line :: lines => match macroStart U line with
    | some (name, args) => parseDefs filename (n + 1) (some ⟨name, n, ⟨args, []⟩⟩) macros lines
    | none => do
      let (macros, out) ← parseDefs filename (n + 1) none macros lines
      .ok (macros, line :: out)

/-! ### Calls -/

/-- `^\s*([A-Za-z_][\w]*)\s+(.+?)\s*$`. If there are only blanks behind the name, the last of them that is no newline is
the text behind it, provided that it is not also the first. -/
def matchCall (line : Text) : Option (String × Text) := do
  let (name, rest) ← ident U (lstrip line)
  let text := lstrip rest
  if text = [] then
    let blanks := if rest.getLast? = some '\n' then rest.dropLast else rest
    if 2 ≤ blanks.length then blanks.getLast?.map fun c => (name, [c]) else none
  else if text.length < rest.length then some (name, rstrip text)
  else none

/-- `^\s*([A-Za-z_][\w]*)\s*$` -/
def matchBare (line : Text) : Option String := do
  let (name, rest) ← ident U (lstrip line)
  if lstrip rest = [] then some name else none

/-- A line that calls a macro: with the values behind the name, or the name alone. -/
structure Invocation where
  name : String
  target : Macro
  vals : Option (List Text)

/-- `[a.strip() for a in re.split(r'[,\s]+', text) if a.strip()]` -/
def values (text : Text) : List Text := pieces (fun c => c == ',' || isSpace c) text

def invocation (macros : Dict Macro) (line : Text) : Option Invocation :=
  match matchCall U line with
  | some (name, text) =>
    if ':' ∈ name.toList then none else (macros.get? name).map fun target => ⟨name, target, some (values text)⟩
  | none => match matchBare U line with
    | some name => (macros.get? name).map fun target => ⟨name, target, none⟩
    | none => none

/-- Every local label gets the number of the call. -/
def numberLabels (n : Nat) (line : Text) : Text :=
  subLabels U (fun (_ : Unit) name => (s!"~@{name}__m{n}".toList, ())) () line

/-- `dict(zip(argnames, vals))` -/
def mapping (args vals : List Text) : Dict Text := (args.zip vals).foldl (fun d p => d.set (.ofList p.1) p.2) []

/-- `$k` is replaced by the value of `k`, one parameter after the other. -/
def substitute (d : Dict Text) (line : Text) : Text :=
  d.foldl (fun line entry => replace ('$' :: entry.1.toList) entry.2 line) line

/-- The lines that take the place of the call with the number `n`. -/
def Invocation.instantiate (call : Invocation) (n : Nat) : List Text :=
  call.target.body.map fun line => match call.vals with
    | some vals => numberLabels U n (substitute (mapping call.target.args vals) line)
    | none => numberLabels U n line

def missingArgs (filename : String) (lineNo : Nat) (call : Invocation) (vals : List Text) : PyErr :=
  let args := ", ".intercalate (call.target.args.map .ofList)
  .systemExit <| s!"{filename}:{lineNo}: macro '{call.name}': need {call.target.args.length} arg(s) " ++
    s!"({args}), got {vals.length}"

/-- `expand_one_pass`, from a line on, with the number of the last call. -/
def expandOnePass (filename : String) (macros : Dict Macro) (lineNo counter : Nat) :
    List Text → Except PyErr (Nat × List Text × Bool)
  | [] => .ok (counter, [], false)
  | line :: rest => match invocation U macros line with
    | none => do
      let (counter, out, expanded) ← expandOnePass filename macros (lineNo + 1) counter rest
      .ok (counter, line :: out, expanded)
    | some call => do
      if let some vals := call.vals then
        if vals.length < call.target.args.length then .error (missingArgs filename lineNo call vals)
      let (counter', out, _) ← expandOnePass filename macros (lineNo + 1) (counter + 1) rest
      .ok (counter', call.instantiate U (counter + 1) ++ out, true)

def MAX_PASSES : Nat := 64

def notTerminated (filename : String) : PyErr :=
  .systemExit <| s!"{filename}: macro expansion did not terminate after {MAX_PASSES} passes " ++
    "(check for a macro that invokes itself, directly or indirectly)"

/-- The passes that are left. -/
def expandPasses (filename : String) (macros : Dict Macro) : Nat → Nat → List Text → Except PyErr (List Text)
  | 0, _, _ => .error (notTerminated filename)
  | passes + 1, counter, lines => do
    let (counter, lines, expanded) ← expandOnePass U filename macros 1 counter lines
    if expanded then expandPasses filename macros passes counter lines else .ok lines

/-- `expand_macros` -/
def expandMacros (filename : String) (src : Text) : Except PyErr Text := do
  let (macros, lines) ← parseDefs U filename 1 none [] (splitLines src)
  let lines ← expandPasses U filename macros MAX_PASSES 0 lines
  .ok lines.flatten

end Aclm.Macros
