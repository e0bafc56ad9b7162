import Aclm.Strict
import Aclm.Macros
import Aclm.Parser.Program
import Aclm.Codegen.Generate

/-! The driver: from the text of a file to the image, through the passes over the text. -/

set_option autoImplicit false

namespace Aclm

/-! ### Paths -/

namespace Path

open Text

def isabs (path : Text) : Bool := path.head? = some '/'

/-- `os.path.join` -/
def join (path part : Text) : Text :=
  if isabs part then part
  else if path = [] ∨ path.getLast? = some '/' then path ++ part
  else path ++ '/' :: part

def basename (path : Text) : Text := path.rtakeWhile (· ≠ '/')

def dirname (path : Text) : Text :=
  let head := path.rdropWhile (· ≠ '/')
  if head.all (· = '/') then head else head.rdropWhile (· = '/')

/-- One component of a path behind those before it, the last of them first. -/
def normStep (rooted : Bool) (comps : List Text) (comp : Text) : List Text :=
  if comp = [] ∨ comp = ['.'] then comps
  else if comp ≠ ['.', '.'] ∨ (!rooted ∧ comps = []) ∨ comps.head? = some ['.', '.'] then comp :: comps
  else comps.tail

/-- `os.path.normpath`; exactly two slashes at the front are kept. -/
def normpath (path : Text) : Text :=
  let slashes := match path with
    | '/' :: '/' :: '/' :: _ => 1
    | '/' :: '/' :: _ => 2
    | '/' :: _ => 1
    | _ => 0
  let comps := (path.splitOnP (· == '/')).foldl (normStep (slashes ≠ 0)) []
  let whole := List.replicate slashes '/' ++ ['/'].intercalate comps.reverse
  if whole = [] then ['.'] else whole

end Path

/-- What the compiler sees of the file system. -/
structure Disk where
  getcwd : Text
  /-- The directory of the compiler's own files. -/
  package : Text
  isfile : Text → Bool
  /-- The text of a file. -/
  read : Text → Except PyErr Text

def Disk.abspath (disk : Disk) (path : Text) : Text :=
  Path.normpath (if Path.isabs path then path else Path.join disk.getcwd path)

open X64 (Byte)

namespace Compiler

open Text

variable (U : CharClasses) (C : Casing) (disk : Disk)

/-! ### Includes -/

/-- `^\s*include:\s*"([^"]+)"\s*(#.*)?$` -/
def includeOf (line : Text) : Option Text :=
  match lstrip line with
  | 'i' :: 'n' :: 'c' :: 'l' :: 'u' :: 'd' :: 'e' :: ':' :: s => match lstrip s with
    | '"' :: s =>
      let inc := s.takeWhile (· ≠ '"')
      match s.drop inc.length with
      | _ :: rest =>
        if inc ≠ [] ∧ (lstrip rest).head?.all (· = '#') then some inc else none
      | [] => none
    | _ => none
  | _ => none

/-- The places where an included file is looked for, in their order. -/
def candidates (baseDir inc : Text) : List Text :=
  if Path.isabs inc then [inc]
  else
    let pkgStd := Path.join (Path.join disk.package "..".toList) "std".toList
    [Path.join baseDir inc, Path.join pkgStd inc, Path.join pkgStd (Path.basename inc)]

def endWithNewline (s : Text) : Text := if s.getLast? = some '\n' then s else s ++ ['\n']

/-- The loop of `resolve_includes`; `nested` resolves an included text, given the files on the way to it. -/
def resolveLines (nested : List Text → Text → Text → Except PyErr (List Text × Text)) (baseDir : Text) :
    List Text → List Text → Except PyErr (List Text × Text)
  | seen, [] => .ok (seen, [])
  | seen, line :: rest => match includeOf line with
    | none => do
      let (seen, out) ← resolveLines nested baseDir seen rest
      .ok (seen, line ++ out)
    | some inc => match (candidates disk baseDir inc).find? disk.isfile with
      | none => .error (.systemExit s!"include not found: {String.ofList inc}")
      | some found => do
        let incSrc ← disk.read found
        let (seen, body) ← nested seen incSrc found
        let (seen, out) ← resolveLines nested baseDir seen rest
        let mark (text : String) : Text := s!"# ---- {text} {String.ofList found} ----\n".toList
        .ok (seen, mark "include" ++ endWithNewline body ++ mark "end include" ++ out)

/-- `resolve_includes`, with the number of files that can still be opened inside one another. -/
def resolveIncludes : Nat → List Text → Text → Text → Except PyErr (List Text × Text)
  | 0, _, _, _ => .error .recursionError
  | limit + 1, seen, src, filename =>
    let path := if filename ≠ "<src>".toList then disk.abspath filename else filename
    if path ∈ seen then .error (.systemExit s!"circular include: {String.ofList path}")
    else
      let baseDir := if path ≠ "<src>".toList then Path.dirname path else disk.getcwd
      resolveLines disk (resolveIncludes limit) baseDir (path :: seen) (splitLines src)

/-! ### The passes -/

/-- The labels numbered so far. -/
structure Locals where
  counter : Nat
  mapping : Dict String

def renameLocal (known : Locals) (name : String) : Text × Locals :=
  match known.mapping.get? name with
  | some label => (('~' :: label.toList), known)
  | none =>
    let label := s!"__loc{known.counter + 1}_{name}"
    (('~' :: label.toList), ⟨known.counter + 1, known.mapping.set name label⟩)

def expandLocalLabels (src : Text) : Text := subLabels U renameLocal ⟨0, []⟩ src

/-- The text with its includes resolved; the limit is that of the interpreter's recursion. -/
def resolved (limit : Nat) (src filename : Text) : Except PyErr Text := (resolveIncludes disk limit [] src filename).map Prod.snd

/-- The program of a text without includes. -/
def programOf (src filename : Text) : Except PyErr Program := do
  let file := String.ofList filename
  let src ← Macros.expandMacros U file src
  let tokens ← Lexer.tokenize U file (expandLocalLabels U src)
  Parser.parse ⟨file, U⟩ tokens

/-- `compile_source` -/
def compileSource (limit : Nat) (opts : Options) (src filename : Text) : Except PyErr (List Byte) := do
  let src ← resolved disk limit src filename
  let program ← programOf U src filename
  generate opts program

/-! ### Files -/

def modeLine (line : Text) : Bool :=
  let line := C.lower (rstrip (lstrip line))
  "@mode:".toList.isPrefixOf line || "mode:".toList.isPrefixOf line

/-- The text of a file without its mode lines. -/
def withoutModes (src : Text) : Text := ['\n'].intercalate ((lines src).filter fun line => !modeLine C line)

/-- The text that the strict mode looks at. -/
def analysed (limit : Nat) (src path : Text) : Except PyErr Text :=
  if Strict.within "include:" src then resolved disk limit src path else .ok src

/-- What `compile_file` turns into a message. -/
def reportedError (e : PyErr) : PyErr :=
  match e with
  | .syntaxError _ | .codegenError _ | .valueError _ => .systemExit "1"
  | e => e

/-- `compile_file`, up to the file it writes. -/
def compileFile (limit : Nat) (opts : Options) (strict warn : Bool) (path : Text) : Except PyErr (List Byte) := do
  let src := withoutModes C (← disk.read path)
  if strict || warn then
    let expanded ← analysed disk limit src path
    if strict && Strict.hasErrors (Strict.analyzeSource U C expanded) then .error (.systemExit "2")
  (compileSource U disk limit opts src path).mapError reportedError

end Compiler

end Aclm
