import Aclm.Parser
import Aclm.Parser.Expression

/-! The statements of one line, by the words they begin with. -/

set_option autoImplicit false

namespace Aclm.Parse

open X64 (Byte)
open Encoder (Size)

/-! ### Forms that many operations have -/

def bare (op : Op) : Parse Op := return op

def ofName (op : String → Op) : Parse Op := do return op (← name)

def ofOperand (op : Expr → Op) : Parse Op := do return op (← operand)

/-- `dest = src` -/
def ofPair (op : String → String → Op) : Parse Op := do
  let dest ← name
  eq
  return op dest (← name)

/-- `dest = src, third`, with or without the comma. -/
def ofTriple (op : String → String → String → Op) : Parse Op := do
  let dest ← name
  eq
  let src ← name
  skip .comma
  return op dest src (← name)

/-- `dest, src`, with or without the comma. -/
def ofNames (op : String → String → Op) : Parse Op := do
  let dest ← name
  skip .comma
  return op dest (← name)

def ofNameImm (op : String → Int → Op) : Parse Op := do
  let dest ← name
  skip .comma
  return op dest (← number)

def ofNamesImm (op : String → String → Int → Op) : Parse Op := do
  let dest ← name
  skip .comma
  let src ← name
  skip .comma
  return op dest src (← number)

def ofPairImm (op : String → String → Int → Op) : Parse Op := do
  let dest ← name
  eq
  let src ← name
  skip .comma
  return op dest src (← number)

/-- `dest = operand` -/
def ofAssign (op : String → Expr → Op) : Parse Op := do
  let dest ← name
  eq
  return op dest (← operand)

/-- `dest = operand, operand` -/
def ofAssign2 (op : String → Expr → Expr → Op) : Parse Op := do
  let dest ← name
  eq
  let first ← operand
  comma
  return op dest first (← operand)

def ofOperands2 (op : Expr → Expr → Op) : Parse Op := do
  let first ← operand
  skip .comma
  return op first (← operand)

def ofOperands3 (op : Expr → Expr → Expr → Op) : Parse Op := do
  let first ← operand
  skip .comma
  let second ← operand
  skip .comma
  return op first second (← operand)

/-- The operations of a family, by the word behind the colon. -/
def family (kw : String) (forms : Dict (Parse Op)) : Parse Op := do
  let op ← keyword
  match forms.get? op with
  | some form => form
  | none => fail (.syntaxError s!"unknown {kw}:{op}")

/-! ### `cpu` -/

def movWidth (op : String → String → Int → Op) : Parse Op := do
  let dest ← name
  eq
  let src ← name
  let width ← if ← accept .comma then number else pure 8
  return op dest src width

def privReg (op : CpuPriv) : Parse Op := do
  if (← kind) = .ident then return .cpuPrivOp op (← name)
  return .cpuPrivOp op "reg1"

def cpuEnter : Parse Op := do
  let size ← number
  let nesting ← if ← accept .comma then number else pure 0
  return .cpuEnter size nesting

def cpuMulx : Parse Op := do
  let hi ← name
  skip .comma
  let lo ← name
  eq
  return .cpuMulx hi lo (← name)

def cpuPrefetch : Parse Op := do
  let kind ← keyword
  return .cpuPrefetch (kind == "w") (← name)

def cpuImulImm : Parse Op := do
  let dest ← name
  eq
  return .cpuImulImm dest (← number)

def cpuCmpxchg16b : Parse Op := do
  let (base, off) ← baseOffset
  return .cpuCmpxchg16b base off

def cpuCmovMem : Parse Op := do
  let dest ← name
  eq
  let (base, off) ← baseOffset
  skip .comma
  return .cpuCmovMem dest base off (← keyword)

def cpuBt : Parse Op := do
  let base ← name
  skip .comma
  return .cpuBt base (← operand)

def cpuCmov : Parse Op := do
  let dest ← name
  eq
  let src ← operand
  skip .comma
  return .cpuCmov dest src (← keyword)

def cpuLea : Parse Op := do
  let dest ← name
  eq
  let _ ← expect .lbrack
  if ← atWord "rip" then
    let _ ← adv
    let _ ← expect .plus
    let lab ← name
    let _ ← expect .rbrack
    return .cpuLeaRip dest lab
  if ← atWord "abs" then
    let _ ← adv
    let addr ← number
    let _ ← expect .rbrack
    return .cpuLeaAbs dest addr
  let base ← primary
  let (index, scale, offset) ← leaParts ((← remaining) + 1) none 1 0
  let _ ← expect .rbrack
  return .cpuLea dest base index scale offset

def cpuBinOps : Dict CpuBinOp :=
  [("set", .set), ("add", .add), ("sub", .sub), ("mul", .mul), ("div", .div), ("mod", .mod), ("and", .and), ("or", .or),
   ("xor", .xor), ("shl", .shl), ("shr", .shr), ("sar", .sar), ("sal", .sal), ("rol", .rol), ("ror", .ror), ("rcl", .rcl),
   ("rcr", .rcr)]

def cpuFlagOps : Dict CpuFlag :=
  [("cbw", .cbw), ("cwde", .cwde), ("cwd", .cwd), ("clc", .clc), ("stc", .stc), ("cmc", .cmc), ("cld", .cld), ("std", .std),
   ("pause", .pause), ("cqo", .cqo), ("cdq", .cdq), ("leave", .leave), ("cdqe", .cdqe), ("pushfq", .pushfq),
   ("popfq", .popfq), ("rdtscp", .rdtscp), ("lfence", .lfence), ("sfence", .sfence), ("mfence", .mfence),
   ("endbr64", .endbr64)]

def cpuPrivOps : Dict CpuPriv :=
  [("sldt", .sldt), ("str", .str), ("smsw", .smsw), ("swapgs", .swapgs), ("rdmsr", .rdmsr), ("wrmsr", .wrmsr),
   ("rdpmc", .rdpmc), ("clts", .clts), ("wbinvd", .wbinvd), ("sysret", .sysret), ("sysenter", .sysenter),
   ("sysexit", .sysexit)]

/-- `_cpu`. The source's second forms of `movzx` and `movsx` stand behind the first ones and are never reached. -/
def cpuForms : Dict (Parse Op) :=
  [("movsxd", ofPair .cpuMovsxd), ("imul3", ofPairImm .cpuImul3), ("ldmxcsr", ofName (.cpuMxcsr true)),
   ("stmxcsr", ofName (.cpuMxcsr false)), ("fxsave", ofName (.cpuFx true)), ("fxrstor", ofName (.cpuFx false)),
   ("xgetbv", bare .cpuXgetbv), ("rdfsbase", ofName (.cpuFsGs .rdfsbase)), ("rdgsbase", ofName (.cpuFsGs .rdgsbase)),
   ("wrfsbase", ofName (.cpuFsGs .wrfsbase)), ("wrgsbase", ofName (.cpuFsGs .wrgsbase)), ("movzx", movWidth .cpuMovzx),
   ("movsx", movWidth .cpuMovsx), ("btimm", ofNameImm (.cpuBitImm .bt)), ("btsimm", ofNameImm (.cpuBitImm .bts)),
   ("btrimm", ofNameImm (.cpuBitImm .btr)), ("btcimm", ofNameImm (.cpuBitImm .btc)), ("shldimm", ofNamesImm .cpuShldImm),
   ("shrdimm", ofNamesImm .cpuShrdImm), ("nopl", bare .cpuNopLong), ("enter", cpuEnter), ("pext", ofTriple .cpuPext),
   ("pdep", ofTriple .cpuPdep), ("mulx", cpuMulx), ("cmpxchg", ofNames .cpuCmpxchg), ("prefetch", cpuPrefetch),
   ("clflush", ofName .cpuClflush), ("shlx", ofTriple .cpuShlx), ("shrx", ofTriple .cpuShrx), ("sarx", ofTriple .cpuSarx),
   ("rorx", ofPairImm .cpuRorx), ("bextr", ofTriple .cpuBextr), ("blsi", ofPair .cpuBlsi), ("blsr", ofPair .cpuBlsr),
   ("blsmsk", ofPair .cpuBlsmsk), ("adcx", ofPair .cpuAdcx), ("adox", ofPair .cpuAdox), ("crc32", ofPair .cpuCrc32),
   ("rdrand", ofName .cpuRdrand), ("rdseed", ofName .cpuRdseed), ("adc", ofPair .cpuAdc), ("sbb", ofPair .cpuSbb),
   ("bswap", ofName .cpuBswap), ("mulu", ofName (.cpuMulDiv1 false)), ("divu", ofName (.cpuMulDiv1 true)),
   ("testimm", ofNameImm .cpuTestImm), ("bts", ofNames (.cpuBitOp .bts)), ("btr", ofNames (.cpuBitOp .btr)),
   ("btc", ofNames (.cpuBitOp .btc)), ("popcnt", ofPair .cpuPopcnt), ("lzcnt", ofPair .cpuLzcnt),
   ("tzcnt", ofPair .cpuTzcnt), ("shld", ofNames .cpuShld), ("shrd", ofNames .cpuShrd), ("imulimm", cpuImulImm),
   ("andn", ofTriple .cpuAndn), ("bzhi", ofTriple .cpuBzhi), ("cmpxchg16b", cpuCmpxchg16b), ("cmovmem", cpuCmovMem),
   ("xchg", ofNames .cpuXchg), ("xadd", ofPair .cpuXadd), ("bsf", ofAssign (.cpuBitScan false)),
   ("bsr", ofAssign (.cpuBitScan true)), ("bt", cpuBt), ("not", ofName (.cpuUnary .not)), ("neg", ofName (.cpuUnary .neg)),
   ("inc", ofName (.cpuUnary .inc)), ("dec", ofName (.cpuUnary .dec)), ("cmov", cpuCmov), ("lea", cpuLea),
   ("test", ofOperands2 .cpuTest)] ++
  cpuPrivOps.map (fun e => (e.1, privReg e.2)) ++ cpuFlagOps.map (fun e => (e.1, bare (.cpuFlagOp e.2))) ++
  cpuBinOps.map (fun e => (e.1, ofAssign (.cpuBin e.2)))

/-! ### Data and memory -/

/-- `n & 0xFF` -/
def byteOf (n : Int) : Byte := .ofInt 8 n

def dataAlign : Parse Op := do
  let n ← number
  if n < 1 ∨ n.toNat &&& (n.toNat - 1) ≠ 0 then fail (.syntaxError "data:align must be power of 2")
  return .dataAlign n

/-- The bytes of `data:bytes`, up to a token that is none. -/
def dataValues : Nat → List Byte → Parse (List Byte)
  | 0, _ => exhausted
  | n + 1, vals => do
    if ← atEnd then return vals
    if ← accept .comma then dataValues n vals
    else
      let t ← peek
      if t.kind = .number then dataValues n (vals ++ [byteOf (← int 0 (← adv).value)])
      else if t.kind = .ident then dataValues n (vals ++ [byteOf (← int 16 (← adv).value)])
      else return vals

/-- `_data` -/
def dataForm : Parse Op := do
  let what ← keyword
  if what = "align" then dataAlign
  else
    let dest ← name
    eq
    if what = "alloc" then
      if (← kind) = .number then return .dataAlloc dest (.bytes (← number))
      return .dataAlloc dest (.struct (← name))
    else if what = "const" then
      if (← kind) = .string then return .dataConst dest (.string (← adv).value)
      return .dataConst dest (.number (← number))
    else if what = "bytes" then
      let vals ← dataValues ((← remaining) + 1) []
      if vals = [] then fail (.syntaxError "data:bytes needs at least one byte")
      return .dataBytes dest vals
    else fail (.syntaxError s!"unknown data:{what}")

def ramRead (size : Size) : Parse Op := do
  let dest ← name
  eq
  let a ← memAddr
  return .memLoad dest a.base a.offset size a.index a.scale

def ramWrite (size : Size) : Parse Op := do
  let a ← memAddr
  eq
  return .memStore a.base a.offset (← operand) size a.index a.scale

/-- `_ram` -/
def ramForms : Dict (Parse Op) :=
  [("read8", ramRead .b8), ("read16", ramRead .b16), ("read32", ramRead .b32), ("read", ramRead .b64), ("read64", ramRead .b64),
   ("write8", ramWrite .b8), ("write16", ramWrite .b16), ("write32", ramWrite .b32), ("write", ramWrite .b64),
   ("write64", ramWrite .b64)]

/-- `_syscall` -/
def sysCall : Parse Op := do
  let num ← if (← kind) = .number then SysNum.number <$> number else SysNum.name <$> name
  return .sysCall num (← operands)

/-- `_stack` -/
def stackForms : Dict (Parse Op) := [("push", ofOperand .stackPush), ("pop", ofName .stackPop)]

/-! ### The families -/

/-- `_blast` -/
def blastForms : Dict (Parse Op) :=
  [("fill", ofAssign2 .blastFill), ("rep_fill", ofAssign2 .blastRepFill), ("repfill", ofAssign2 .blastRepFill),
   ("rep_copy", ofAssign2 .blastRepCopy), ("repcopy", ofAssign2 .blastRepCopy), ("copy", ofAssign2 .blastCopy)]

def wireCopy : Parse Op := do
  let dest ← operand
  eq
  return .wireCopy dest (← operand)

def wireEmit : Parse Op := do
  let src ← operand
  if ← atEnd then return .wireEmit src none
  skip .comma
  return .wireEmit src (some (← operand))

/-- `_wire` -/
def wireForms : Dict (Parse Op) :=
  [("len", ofAssign .wireLen), ("cmp", ofAssign2 .wireCmp), ("copy", wireCopy), ("emit", wireEmit)]

def cellMap : Parse Op := do
  let dest ← name
  eq
  let size ← operand
  if ← accept .comma then
    let prot ← operand
    if ← accept .comma then return .cellMap dest size (some prot) (some (← operand))
    return .cellMap dest size (some prot) none
  return .cellMap dest size none none

def cellMapFile : Parse Op := do
  let dest ← name
  eq
  let size ← operand
  skip .comma
  let fd ← operand
  if ← accept .comma then
    let offset ← operand
    if ← accept .comma then return .cellMapFile dest size fd (some offset) (some (← operand))
    return .cellMapFile dest size fd (some offset) none
  return .cellMapFile dest size fd none none

/-- `_cell` -/
def cellForms : Dict (Parse Op) :=
  [("map", cellMap), ("mapfile", cellMapFile), ("free", ofOperands2 .cellFree), ("protect", ofOperands3 .cellProtect)]

def gateFence : Parse Op := do
  if (← kind) = .ident then return .gateFence (← keyword)
  return .gateFence "mfence"

/-- `_gate` -/
def gateForms : Dict (Parse Op) := [("cas", ofTriple .gateCas), ("spin", ofName .gateSpin), ("fence", gateFence)]

/-- `_pulse` -/
def pulseForms : Dict (Parse Op) := [("sleep", ofOperand .pulseSleep), ("now", ofName .pulseNow)]

/-- The registers named behind the leaf of `chip:id`; the names that are left out have defaults. -/
def chipDests : List String → Parse (List String)
  | [] => return []
  | dest :: rest => do
    if (← kind) = .ident then
      let first ← name
      if rest ≠ [] then skip .comma
      return first :: (← chipDests rest)
    return dest :: rest

def chipId : Parse Op := do
  let leaf ← operand
  match ← chipDests ["reg1", "reg2", "reg3", "reg4"] with
  | [a, b, c, d] => return .chipId leaf a b c d
  | _ => exhausted

def chipInt : Parse Op := do return .chipInt ((← number) % 256)

def pitInit : Parse Op := do
  if (← kind) = .number then
    let div := (← number) % 65536
    return .chipPitInit (if div = 0 then 1 else div)
  return .chipPitInit 11932

/-- `_chip` -/
def chipForms : Dict (Parse Op) :=
  [("ticks", ofName .chipTicks), ("id", chipId), ("cli", bare .chipCli), ("sti", bare .chipSti), ("halt", bare .chipHalt),
   ("hlt", bare .chipHalt), ("serial_init", bare .chipSerialInit), ("serial_putc", ofOperand .chipSerialPutc),
   ("lidt", ofName .chipLidt), ("lgdt", ofName .chipLgdt), ("kbd_poll", ofName .chipKbdPoll), ("int", chipInt),
   ("pit_init", pitInit), ("pic_remap", bare .chipPicRemap)]

def coopSwitch : Parse Op := do
  let save ← name
  comma
  return .kernelCoopSwitch save (← name)

def ramfsPut : Parse Op := do
  let name ← operand
  comma
  let data ← operand
  comma
  return .kernelRamfsPut name data (← operand)

def enterUser : Parse Op := do
  let entry ← operand
  comma
  return .kernelEnterUser entry (← operand)

def nicRegWrite : Parse Op := do
  let off ← operand
  eq
  return .kernelNicRegWrite off (← operand)

/-- The handler may be a label or its bare name. -/
def syscallRegister : Parse Op := do
  let nr := (← number) % 64
  comma
  if (← kind) = .label then return .kernelSyscallRegister nr (← label)
  return .kernelSyscallRegister nr (← name)

def dmaRingInit : Parse Op := do
  if (← kind) = .number then return Parser.dmaRingInit (← number)
  return Parser.dmaRingInit 16

def dmaRingPush : Parse Op := do
  let addr ← operand
  comma
  return .kernelDmaRingPush addr (← operand)

def dmaRingPop : Parse Op := do
  let addr ← name
  comma
  return .kernelDmaRingPop addr (← name)

/-- `_kernel` -/
def kernelForms : Dict (Parse Op) :=
  [("heap_init", do return .kernelHeapInit (← number)), ("heap_alloc", ofAssign .kernelHeapAlloc),
   ("ctx_save", ofName .kernelCtxSave), ("ctx_load", ofName .kernelCtxLoad), ("idt_install", bare .kernelIdtInstall),
   ("coop_switch", coopSwitch), ("printk_str", ofOperand .kernelPrintkStr), ("panic", bare .kernelPanic),
   ("tick_install", bare .kernelTickInstall), ("tick_read", ofName .kernelTickRead), ("ramfs_init", bare .kernelRamfsInit),
   ("ramfs_put", ramfsPut), ("ramfs_get", ofAssign .kernelRamfsGet), ("net_init", bare .kernelNetInit),
   ("net_poll", ofName .kernelNetPoll), ("cs_ring", ofName .kernelCsRing), ("enter_user", enterUser),
   ("pf_install", bare .kernelPfInstall), ("net_allow_port", do return Parser.netAllowPort (← number)),
   ("net_check_port", ofAssign .kernelNetCheckPort), ("preempt_arm", ofName .kernelPreemptArm),
   ("syscall_init", bare .kernelSyscallInit), ("sysret", bare .kernelSysret), ("nic_bar", ofOperand .kernelNicBar),
   ("nic_reg_read", ofAssign .kernelNicRegRead), ("nic_reg_write", nicRegWrite),
   ("irq_full_save_on", bare .kernelIrqFullSave), ("syscall_table_init", bare .kernelSyscallTableInit),
   ("syscall_register", syscallRegister), ("nmi_install", bare .kernelNmiInstall), ("dma_ring_init", dmaRingInit),
   ("dma_ring_push", dmaRingPush), ("dma_ring_pop", dmaRingPop)]

def portOut : Parse Op := do
  let port ← operand
  eq
  return .portOut port (← operand)

/-- `_port` -/
def portForms : Dict (Parse Op) := [("out", portOut), ("in", ofAssign .portIn)]

def vecFrom (op : String → Expr → Int → Op) : Parse Op := do
  let xmm ← name
  eq
  let (base, off) ← baseOffset
  return op xmm base off

def vecTo (op : Expr → Int → String → Op) : Parse Op := do
  let (base, off) ← baseOffset
  eq
  return op base off (← name)

/-- `_vec` -/
def vecForms : Dict (Parse Op) :=
  [("load", vecFrom .vecLoad), ("store", vecTo .vecStore), ("addps", ofPair (.vecBin .addps)), ("subps", ofPair (.vecBin .subps)),
   ("mulps", ofPair (.vecBin .mulps)), ("divps", ofPair (.vecBin .divps)),
   ("vaddps", ofPair fun dst src => .vecVBin .vaddps dst src 0), ("vsubps", ofPair fun dst src => .vecVBin .vsubps dst src 0),
   ("vmulps", ofPair fun dst src => .vecVBin .vmulps dst src 0), ("vdivps", ofPair fun dst src => .vecVBin .vdivps dst src 0),
   ("vshufps", ofPairImm (.vecVBin .vshufps)), ("vbroadcastss", ofPair fun dst src => .vecVBin .vbroadcastss dst src 0),
   ("vload", vecFrom .vecVLoad), ("vstore", vecTo .vecVStore)]

def threadSpawn : Parse Op := do
  let dest ← name
  eq
  return .threadSpawn dest (← label)

/-- `_thread` -/
def threadForms : Dict (Parse Op) :=
  [("spawn", threadSpawn), ("join_all", bare .threadJoinAll), ("joinall", bare .threadJoinAll),
   ("join", do return .threadJoin (← optOperand)), ("exit", do return .threadExit (← optOperand))]

def epollCreate : Parse Op := do
  let dest ← name
  eq
  return .netEpollCreate dest (← optOperand)

def epollCtl : Parse Op := do
  let epfd ← operand
  skip .comma
  let op ← operand
  skip .comma
  let fd ← operand
  skip .comma
  return .netEpollCtl epfd op fd (← operand)

def epollWait : Parse Op := do
  let dest ← name
  eq
  let epfd ← operand
  skip .comma
  let events ← operand
  skip .comma
  let maxevents ← operand
  skip .comma
  return .netEpollWait dest epfd events maxevents (← operand)

def netSocket : Parse Op := do
  let dest ← name
  eq
  ofOperands3 (.netSocket dest)

/-- `_net` -/
def netForms : Dict (Parse Op) :=
  [("poll", ofOperands3 .netPoll), ("epoll_create", epollCreate), ("epoll_ctl", epollCtl), ("epoll_wait", epollWait),
   ("socket", netSocket), ("connect", ofOperands3 .netConnect), ("send", ofOperands3 .netSend), ("recv", ofOperands3 .netRecv),
   ("close", ofOperand .netClose)]

/-! ### Statements without a family of their own -/

def cmp : Parse Op := do
  let left ← operand
  comma
  return .cmp left (← operand)

def jumpIf : Parse Op := do
  let cond ← keyword
  return .jumpIf cond (← label)

def goto : Parse Op := do return .goto (← label)

def call : Parse Op := do
  let lab ← label
  return .call lab (← operands)

def ret : Parse Op := do
  match ← optOperand with
  | some value => return .retVal (some value)
  | none => return .ret

/-- `str(getattr(hnum, 'value', hnum))`, where the places that a node prints are left out. -/
def handlerText : Expr → String
  | .number value => toString value
  | .string value => value
  | node => node.typeName

def sigAction : Parse Op := do
  let signo ← operand
  skip .comma
  if (← kind) = .label then return .sigAction signo (← label)
  return .sigAction signo (handlerText (← operand))

def section' : Parse Op := do
  let name ← keyword
  if ← atWord "at" then
    let _ ← adv
    colon
    return .sectionAt name (← number)
  return .sectionAt name 0

def assertBytes : Parse Op := do
  let name ← name
  let t ← peek
  let op ← if t.kind = .ident ∧ t.value ∈ ["le", "eq", "lte"] then
      let word := lower (← adv).value
      pure (if word = "eq" then AssertOp.eq else .le)
    else if ← accept .eq then pure .eq
    else pure .le
  let op ← if ← accept .eq then pure .eq else pure op
  return .assertBytes name (← number) op

def assertSize : Parse Op := do
  let which ← keyword
  skip .eq
  return .assertSize which (← number)

def flagSetcc : Parse Op := do
  let dest ← name
  eq
  return .flagSetcc dest (← keyword)

def flagsSet : Parse Op := do
  if (← keyword) ≠ "df" then fail (.syntaxError "flags:set only supports DF")
  return .flagsSetDF

def local' : Parse Op := do
  let name ← name
  eq
  return .localDecl name (← number)

/-- The size that the name of a field type stands for. -/
def fieldTypes : Dict Int :=
  [("i8", 1), ("u8", 1), ("i16", 2), ("u16", 2), ("i32", 4), ("u32", 4), ("i64", 8), ("u64", 8), ("ptr", 8)]

def fieldSize : Parse Int := do
  match ← kind with
  | .ident =>
    let sname ← keyword
    match fieldTypes.get? sname with
    | some size => return size
    | none => fail (.syntaxError s!"unknown field type {sname}")
  | .number => number
  | _ => fail (.syntaxError "expected field size or type")

/-- `end:what`, at the word `end`. -/
def endOf (what : String) : Parse Unit := do
  let _ ← adv
  colon
  let endwhat ← keyword
  if endwhat ≠ what then fail (.syntaxError s!"expected end:{what}, got end:{endwhat}")

def structFields : Nat → List (String × Int) → Parse (List (String × Int))
  | 0, _ => exhausted
  | n + 1, fields => do
    if ← atWord "end" then
      endOf "struct"
      return fields
    if (← kind) = .eof then fail (.syntaxError "unclosed struct")
    let fname ← name
    colon
    let fsize ← fieldSize
    skipNl
    structFields n (fields ++ [(fname, fsize)])

def struct : Parse Op := do
  let name ← name
  skipNl
  return .structDef name (← structFields ((← remaining) + 1) [])

/-! ### `raw` -/

/-- The bytes of a string: hexadecimal numbers between blanks and commas. -/
def quotedBytes (s : String) : Parse (List Byte) := do
  let parts := Text.split (Text.replace [','] [' '] s.toList)
  parts.mapM fun p => byteOf <$> int 16 (.ofList p)

/-- A number is hexadecimal unless it says otherwise. -/
def rawNumber (value : String) : Parse Byte := do
  let prefixes := ["0x", "0X", "0b", "0B", "0o", "0O"]
  return byteOf (← int (if prefixes.any (startsWith value) then 0 else 16) value)

/-- The bytes on the line, up to a token that is none. -/
def rawLine : Nat → List Byte → Parse (List Byte)
  | 0, _ => exhausted
  | n + 1, parts => do
    if ← atEnd then return parts
    if ← accept .comma then rawLine n parts
    else
      let t ← peek
      if t.kind = .number then rawLine n (parts ++ [← rawNumber (← adv).value])
      else if t.kind = .ident then rawLine n (parts ++ [byteOf (← int 16 (← adv).value)])
      else return parts

/-- The bytes up to `raw:end`. -/
def rawBlock : Nat → List Byte → Parse (List Byte)
  | 0, _ => exhausted
  | n + 1, parts => do
    let t ← peek
    match t.kind with
    | .eof => fail (.syntaxError "unclosed raw:begin")
    | .ident =>
      let _ ← adv
      if lower t.value = "raw" then
        colon
        if (← keyword) ≠ "end" then fail (.syntaxError "expected raw:end")
        return parts
      rawBlock n (parts ++ [byteOf (← int 16 t.value)])
    | .newline | .comma =>
      let _ ← adv
      rawBlock n parts
    | .string =>
      let _ ← adv
      rawBlock n (parts ++ (← quotedBytes t.value))
    | .number =>
      let _ ← adv
      rawBlock n (parts ++ [← rawNumber t.value])
    | _ => fail (.syntaxError s!"bad token in raw:begin: {t.repr}")

/-- `raw:begin ... raw:end`, `raw: AA BB` or `raw: "AA BB"` -/
def raw : Parse Op := do
  if ← atWord "begin" then
    let _ ← adv
    skipNl
    return .rawBytes (← rawBlock ((← remaining) + 1) [])
  if (← kind) = .string then return .rawBytes (← quotedBytes (← adv).value)
  return .rawBytes (← rawLine ((← remaining) + 1) [])

end Aclm.Parse
