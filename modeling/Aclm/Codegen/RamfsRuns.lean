import Aclm.Codegen.Ramfs

/-! What the RAM file system finds after any run of its statements, and what they write to. -/

set_option autoImplicit false

namespace Aclm.Codegen

open X64 (Word Reg Cpu Env Machine Memory)
open X64.Memory (SameOn Separate Spelled Table Zeros slot)
open Encoder
open FileTable (Put ofHistory kept)

/-- Where the table is. -/
def ramfsBase (L : Listing) : Word := L.address (data "__ramfs")

/-- A statement hands over this file: its name ends with a NUL, and the words that registers are saved in lie outside the
name and the table, and so does the name outside the table. -/
structure Hands (L : Listing) (c : Cpu) (o o₁ o₂ : Operand) (p : Put) : Prop where
  spelled : Spelled c.mem (o.value L.address c) p.name
  data : o₁.value L.address c = p.data
  length : o₂.value L.address c = p.length
  clear : StackClear L c 24 "__ramfs" 288
  clear' : Separate (c.reg .rsp - 24) 24 (o.value L.address c) (p.name.1.length + 1)
  apart : Separate (ramfsBase L) 256 (o.value L.address c) (p.name.1.length + 1)

/-- A run from the zeros of the image in which these files have been stored since the last initialisation. In between the
program may do anything but write to the table. -/
inductive RamfsRun (L : Listing) (M : Machine) : Cpu → List Put → Prop where
  | start {c : Cpu} (zeros : Zeros (ramfsBase L) 256 c.mem) : RamfsRun L M c []
  | init {g : CodeGenerator} {c d : Cpu} {history : List Put} (run : RamfsRun L M c history)
      (clear : StackClear L c 16 "__ramfs" 256) (executes : Executes L M g .kernelRamfsInit c d) : RamfsRun L M d []
  | put {g : CodeGenerator} {name file length : Expr} {o o₁ o₂ : Operand} {p : Put} {c d : Cpu} {history : List Put}
      (run : RamfsRun L M c history) (plain : Plain g [.r12, .r13, .r14] name o) (plain₁ : Plain g [.r12, .r13, .r14] file o₁)
      (plain₂ : Plain g [.r12, .r13, .r14] length o₂) (hands : Hands L c o o₁ o₂ p)
      (executes : Executes L M g (.kernelRamfsPut name file length) c d) : RamfsRun L M d (history ++ [p])
  | other {c d : Cpu} {history : List Put} (run : RamfsRun L M c history)
      (kept : SameOn (ramfsBase L) 256 c.mem d.mem) : RamfsRun L M d history

variable {L : Listing} {M : Machine} {g : CodeGenerator} {c : Cpu} {history : List Put}

/-- A file is stored in a table. -/
theorem Hands.executes (loaded : L.Loaded M) {t : FileTable} (table : Table c.mem (ramfsBase L) t) {name file length : Expr}
    {o o₁ o₂ : Operand} {p : Put} (plain : Plain g [.r12, .r13, .r14] name o) (plain₁ : Plain g [.r12, .r13, .r14] file o₁)
    (plain₂ : Plain g [.r12, .r13, .r14] length o₂) (hands : Hands L c o o₁ o₂ p) {i : Nat} {calls : List Call}
    (stands : Stands L g (.kernelRamfsPut name file length) i calls) :
    ∃ d, M.Completes (L.offset i) (L.offset (i + calls.length)) c d ∧
      PutDone (ramfsBase L) t p.name p.data p.length c d := by
  obtain ⟨top, found, done, copy, appends⟩ := ramfsPut_appends plain plain₁ plain₂
  have meets := ramfsPut_meets (L := L) plain.outside plain₁.outside plain₂.outside table hands.spelled hands.clear
    hands.clear' hands.apart top found done copy
  rw [hands.data, hands.length] at meets
  exact stands.executes loaded appends meets

/-- The table holds what the history has left. -/
theorem RamfsRun.table (loaded : L.Loaded M) (run : RamfsRun L M c history) : Table c.mem (ramfsBase L) (ofHistory history) := by
  induction run with
  | start zeros => exact .of_zeros zeros
  | @init g _ _ _ _ clear executes _ =>
    obtain ⟨zeros, -⟩ := executes.post loaded (ramfsInit_appends g) (ramfsInit_meets _ clear)
    exact .of_zeros zeros
  | put _ plain plain₁ plain₂ hands executes ih =>
    obtain ⟨i, calls, stands, completes⟩ := executes
    obtain ⟨e, other, stored⟩ := hands.executes loaded ih plain plain₁ plain₂ stands
    rw [completes.unique other, FileTable.ofHistory_concat]
    exact stored.table
  | other _ kept ih => exact ih.sameOn kept

/-! ### A file that is stored again and again -/

/-- A file under the name `a`. -/
def letterFile : Put := ⟨⟨[0x61], by decide⟩, 5, 7⟩

def letterPut : Op := .kernelRamfsPut (.reg "reg2") (.reg "reg3") (.reg "reg4")

def letterGet : Op := .kernelRamfsGet "reg1" (.reg "reg2")

def letterPutCalls : List Call :=
  ramfsPutCalls (.reg .rbx) (.reg .rcx) (.reg .rdx) (freshLabel "rfs" 1) (freshLabel "rff" 2) (freshLabel "rfd" 3) (freshLabel "rfc" 4)

def letterGetCalls : List Call :=
  ramfsGetCalls .rax (.reg .rbx) (freshLabel "rfgl" 1) (freshLabel "rfgc" 5) (freshLabel "rfgne" 6) (freshLabel "rfgf" 2)
    (freshLabel "rfgok" 3) (freshLabel "rfgd" 4)

/-- The stack ends where the table begins, and the name is behind the table. -/
structure Letter (L : Listing) (c : Cpu) : Prop where
  sp : c.reg .rsp = ramfsBase L
  spelled : Spelled c.mem (ramfsBase L + 1000) letterFile.name

/-- The operands of the statement are set. -/
def Letter.ready (L : Listing) (c : Cpu) : Cpu := ((c.set .rbx (ramfsBase L + 1000)).set .rcx 5).set .rdx 7

theorem Letter.hands (letter : Letter L c) : Hands L (ready L c) (.reg .rbx) (.reg .rcx) (.reg .rdx) letterFile := by
  have sp : (ready L c).reg .rsp = ramfsBase L := letter.sp
  have small : letterFile.name.1.length = 1 := rfl
  refine ⟨letter.spelled, rfl, rfl, ?_, ?_, ?_⟩
  · change Separate ((ready L c).reg .rsp - BitVec.ofNat 64 24) 24 (ramfsBase L) 288
    rw [sp]
    constructor <;> bv_omega
  · change Separate ((ready L c).reg .rsp - 24) 24 (ramfsBase L + 1000) _
    rw [sp, small]
    constructor <;> bv_omega
  · change Separate (ramfsBase L) 256 (ramfsBase L + 1000) _
    rw [small]
    constructor <;> bv_omega

theorem letter_plain : Plain (.new false) [.r12, .r13, .r14] (.reg "reg2") (.reg .rbx) ∧
    Plain (.new false) [.r12, .r13, .r14] (.reg "reg3") (.reg .rcx) ∧
    Plain (.new false) [.r12, .r13, .r14] (.reg "reg4") (.reg .rdx) :=
  ⟨.reg (by decide) (by decide), .reg (by decide) (by decide), .reg (by decide) (by decide)⟩

/-- The file is stored, and everything is as before for it to be stored once more. -/
theorem Letter.next (loaded : L.Loaded M) {i : Nat} {calls : List Call} (stands : Stands L (.new false) letterPut i calls)
    (letter : Letter L c) (run : RamfsRun L M c history) : ∃ d, Letter L d ∧ RamfsRun L M d (history ++ [letterFile]) := by
  obtain ⟨plain, plain₁, plain₂⟩ := letter_plain
  have set : RamfsRun L M (ready L c) history := .other run (.refl _ _ _)
  obtain ⟨d, completes, stored⟩ := letter.hands.executes loaded (set.table loaded) plain plain₁ plain₂ stands
  have sp : (ready L c).reg .rsp = ramfsBase L := letter.sp
  refine ⟨d, ⟨stored.sp.trans sp, letter.spelled.sameOn fun x inside => ?_⟩,
    .put set plain plain₁ plain₂ letter.hands ⟨_, _, stands, completes⟩⟩
  have few := (ofHistory history).2
  have small : letterFile.name.1.length = 1 := rfl
  rw [small] at inside
  refine stored.only x (by rw [sp]; bv_omega) ?_
  unfold slot
  bv_omega

theorem exists_letter (n : Nat) : ∃ (L : Listing) (M : Machine) (c : Cpu), L.Loaded M ∧ Letter L c ∧
    RamfsRun L M c (List.replicate n letterFile) ∧ (∃ i calls, Stands L (.new false) letterPut i calls) ∧
      ∃ i calls, Stands L (.new false) letterGet i calls := by
  obtain ⟨L, M, loaded, calls, -, -⟩ := Listing.exists_loaded (letterPutCalls ++ letterGetCalls) [(data "__ramfs", 1000)]
    .silent (by decide +kernel)
  have here : L.At 0 (letterPutCalls ++ letterGetCalls) := calls ▸ List.prefix_refl _
  obtain ⟨first, second⟩ := here.append _
  have put : Stands L (.new false) letterPut 0 letterPutCalls := ⟨⟨_, rfl, rfl⟩, first⟩
  refine ⟨L, M, ?_⟩
  have runs : ∃ c, Letter L c ∧ RamfsRun L M c (List.replicate n letterFile) := by
    induction n with
    | zero =>
      let start := (Cpu.filled (ramfsBase L)).setMem ((Cpu.filled (ramfsBase L)).mem.store (ramfsBase L + 1000) 1 0x61)
      have first : start.mem (ramfsBase L + 1000) = 0x61 := by
        rw [X64.Cpu.setMem_mem, X64.Memory.store_front Nat.one_pos]
        rfl
      have others {x : Word} (other : x ≠ ramfsBase L + 1000) : start.mem x = 0 := X64.Strip.store_byte_of_ne other
      have string : X64.Memory.Terminated start.mem (ramfsBase L + 1000) 1 := by
        refine ⟨by decide, others (by simp), fun i less => ?_⟩
        obtain rfl := Nat.lt_one_iff.mp less
        rw [BitVec.add_zero, first]
        decide
      have spelled : Spelled start.mem (ramfsBase L + 1000) letterFile.name :=
        ⟨string, by simpa [letterFile, X64.Memory.bytes] using first⟩
      exact ⟨start, ⟨rfl, spelled⟩, .start fun x inside => others fun same => by rw [same] at inside; bv_omega⟩
    | succ n ih =>
      obtain ⟨c, letter, run⟩ := ih
      rw [List.replicate_succ']
      exact letter.next loaded put run
  obtain ⟨c, letter, run⟩ := runs
  exact ⟨c, loaded, letter, run, ⟨_, _, put⟩, _, _, ⟨⟨_, rfl, rfl⟩, second⟩⟩

end Aclm.Codegen
