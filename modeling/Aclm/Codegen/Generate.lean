import Aclm.Codegen.Emit
import Aclm.Image.Debug
import Aclm.Image.Kernel

/-! The whole generator: the data section, the order of the code, the linking and the output file. -/

set_option autoImplicit false

namespace Aclm

open X64 (Byte Reg)
open Encoder
open Codegen

/-- The build options. -/
structure Options where
  debug : Bool
  wx : Bool
  listing : Bool
  deriving DecidableEq, Repr

namespace Codegen

/-! ### Before the code -/

def structLayout (fields : List (String × Int)) : StructLayout :=
  fields.foldl (fun s f => ⟨s.fields.set f.1 s.size, s.size + f.2⟩) ⟨[], 0⟩

mutual

/-- `_collect_structs`, function bodies included. -/
def collectStructs : List Stmt → Dict StructLayout → Dict StructLayout
  | [], structs => structs
  | s :: rest, structs => collectStructs rest (collectStruct s structs)

def collectStruct : Stmt → Dict StructLayout → Dict StructLayout
  | .op _ (.structDef name fields), structs => structs.set name (structLayout fields)
  | .op _ _, structs => structs
  | .fnDef _ _ _ body _, structs => collectStructs body structs

end

/-- A datum: its offset under its name, and its bytes; the next offset is counted apart from them. -/
def placeDatum (g : CodeGenerator) (name : String) (off : Int) (bytes : List Byte) : CodeGenerator :=
  { g with dataLayout := g.dataLayout.set name off, dataBytes := g.dataBytes ++ bytes }

def allocSize (structs : Dict StructLayout) : AllocSize → Except PyErr Int
  | .bytes n => .ok n
  | .struct name => match structs.get? name with
    | some s => .ok s.size
    | none => .error (.codegenError s!"data:alloc unknown struct/size '{name}'")

/-- One declaration, with the offset before it and after it. -/
def collectDatum (g : CodeGenerator) (off : Int) : Op → Except PyErr (CodeGenerator × Int)
  | .dataAlloc name size => do
    let n ← allocSize g.structs size
    .ok (placeDatum g name off (zeroBytes n), off + n)
  | .dataAlign a =>
    let pad := (a - off % a) % a
    .ok ({ g with dataBytes := g.dataBytes ++ zeroBytes pad }, off + pad)
  | .dataBytes name values =>
    .ok ({ placeDatum g name off values with stringLens := g.stringLens.set name values.length }, off + values.length)
  | .dataConst name (.number value) =>
    .ok ({ placeDatum g name off (Encoder.u64 value) with dataConsts := g.dataConsts.set name value }, off + 8)
  | .dataConst name (.string value) =>
    let raw := Image.utf8 value ++ [0]
    .ok ({ placeDatum g name off raw with stringLens := g.stringLens.set name (raw.length - 1) }, off + raw.length)
  | _ => .ok (g, off)

/-- `_collect_data` -/
def collectData : List Stmt → CodeGenerator → Int → Except PyErr CodeGenerator
  | [], g, _ => .ok g
  | .fnDef .. :: rest, g, off => collectData rest g off
  | .op _ op :: rest, g, off => do
    let (g, off) ← collectDatum g off op
    collectData rest g off

def threadStmt : Stmt → Bool
  | .op _ (.threadSpawn ..) | .op _ (.threadJoin _) | .op _ .threadJoinAll | .op _ (.threadExit _) => true
  | _ => false

def pulseStmt : Stmt → Bool
  | .op _ (.pulseSleep _) | .op _ (.pulseNow _) => true
  | _ => false

def baremetalStmt : Stmt → Bool
  | .op _ .targetBaremetal => true
  | _ => false

def deterministicStmt : Stmt → Bool
  | .op _ .metalDeterministic => true
  | _ => false

/-- A cell that the generator itself needs, behind the declared data. -/
def addCell (name : String) (n : Nat) (needed : Bool) (g : CodeGenerator) : CodeGenerator :=
  if needed then placeDatum g name g.dataBytes.length (List.replicate n 0) else g

/-- The generator before it emits code. -/
def prepare (opts : Options) (p : Program) : Except PyErr CodeGenerator := do
  let g := { CodeGenerator.new opts.listing with
    baremetal := p.statements.any baremetalStmt, structs := collectStructs p.statements [] }
  let g ← collectData p.statements g 0
  let g := { g with deterministic := p.statements.any deterministicStmt }
  let g := addCell "__timespec" 16 (p.statements.any pulseStmt) g
  .ok (addCell "__thr_futex" 24 (p.statements.any threadStmt) g)

/-! ### The code -/

def isFn : Stmt → Bool
  | .fnDef .. => true
  | .op .. => false

/-- `_ends_exit` -/
def endsExit (stmts : List Stmt) : Bool :=
  match stmts.getLast? with
  | some (.op _ (.sysCall (.name num) _)) => lower num = "exit" || lower num = "60"
  | some (.op _ (.sysCall (.number num) _)) => num = 60
  | _ => false

def exitStub : List Call := [.movRegImm64 .rax 60, xorRegReg .rdi .rdi, .syscall]

/-- The end of the main program: on Linux an exit, unless the program ends with one. -/
def emitEnd (stmts : List Stmt) : Gen Unit := do
  unless (← get).baremetal || endsExit stmts do asm exitStub

/-- The top-level statements, the end of the main program, and the functions. -/
def emitProgram (stmts : List Stmt) : Gen Unit := do
  emitAll (stmts.filter fun s => !isFn s)
  emitEnd stmts
  emitAll (stmts.filter isFn)

/-- The emission and the assembler it drove: the first exception of the two is the one raised. -/
def emitted (opts : Options) (p : Program) : Except PyErr (CodeGenerator × Assembler) := do
  let g ← prepare opts p
  match emitProgram p.statements g with
  | .ok _ g => do .ok (g, ← (Assembler.empty g.deterministic).run g.script)
  | .error e g => do
    let _ ← (Assembler.empty g.deterministic).run g.script
    .error e

/-! ### Linking -/

/-- `offs[f"__data_{name}"] = code_len + off` for every datum. -/
def addData (codeLen : Nat) (layout : Dict Int) (offs : Dict Int) : Dict Int :=
  layout.foldl (fun offs d => offs.set (data d.1) (codeLen + d.2)) offs

/-- The gap that the W^X layout has between code and data. -/
def wxPad (codeLen : Nat) : Nat :=
  let (codeOff, dataOff) := Image.wxCodeDataFileOffsets codeLen
  dataOff - codeOff - codeLen

def shiftData (pad : Nat) (offs : Dict Int) : Dict Int :=
  offs.map fun o => if startsWith o.1 "__data_" then (o.1, o.2 + pad) else o

/-- The offsets of all names the code can refer to, from the start of the code. -/
def targetOffsets (opts : Options) (g : CodeGenerator) (a : Assembler) : Dict Int :=
  let offs := addData a.code.length g.dataLayout a.labelOffsets
  if opts.wx then shiftData (wxPad a.code.length) offs else offs

/-! ### The output -/

def labelStart (a : Assembler) (name : String) : Nat :=
  (a.labels.get? (lbl name)).getD ((a.labels.get? name).getD 0)

def checkBytes (a : Assembler) (s : AssertBytes) : Except PyErr Unit :=
  let start := labelStart a s.name
  let size := if start ≤ s.codeOff then s.codeOff - start else a.code.length
  match s.op with
  | .eq => if size ≠ s.limit then
      .error (.codegenError s!"assert:bytes {s.name}: got {size} bytes, want == {s.limit}") else .ok ()
  | .le => if size > s.limit then
      .error (.codegenError s!"assert:bytes {s.name}: got {size} bytes, want <= {s.limit}") else .ok ()

def checkSize (codeLen dataLen : Nat) (s : String × Int) : Except PyErr Unit :=
  let n := if s.1 = "code" then codeLen else dataLen
  if n > s.2 then .error (.codegenError s!"assert:size {s.1}: got {n} bytes, want <= {s.2}") else .ok ()

/-- `_run_asserts` -/
def runAsserts (g : CodeGenerator) (a : Assembler) : Except PyErr Unit := do
  g.assertBytes.forM (checkBytes a)
  g.assertSizes.forM (checkSize a.code.length g.dataBytes.length)

/-- `_build_baremetal_kernel` -/
def buildBaremetalKernel (code data : List Byte) : Except PyErr (List Byte) :=
  let payload := if code = [] then Image.STOP else code
  Image.buildLongModeKernel payload data Image.LOAD_ADDR

/-- The symbols of a debug build, sorted by name. -/
def sortedLabels (a : Assembler) : List (String × Nat) := a.labels.insertionSort fun s t => s.1 ≤ t.1

/-- The choice of the image writer. -/
def writeImage (opts : Options) (g : CodeGenerator) (a : Assembler) : Except PyErr (List Byte) :=
  if g.baremetal then buildBaremetalKernel a.code g.dataBytes
  else if opts.debug then Image.buildElf64WithSymtab a.code g.dataBytes (sortedLabels a) 0
  else if opts.wx then Image.buildElf64ExeWx a.code g.dataBytes 0
  else Image.buildElf64Exe a.code g.dataBytes 0

end Codegen

/-- `CodeGenerator.generate` -/
def generate (opts : Options) (p : Program) : Except PyErr (List Byte) := do
  let (g, a) ← emitted opts p
  let linked ← a.link (targetOffsets opts g a)
  runAsserts g linked
  writeImage opts g linked

end Aclm
