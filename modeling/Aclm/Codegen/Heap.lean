import Aclm.Codegen.Run

/-! The bump heap: the blocks that a run of allocations returns, and when they are blocks of the heap. -/

set_option autoImplicit false

namespace Aclm.Codegen

open X64 (Word Reg Cpu Machine)
open X64.Memory (Separate SameOn range Consecutive totalLength)
open Encoder

/-- Where the pointer to the first free byte is kept. -/
def heapPtr : String := data "__kheap_ptr"

def heapInitCalls : List Call :=
  [.leaRegLabel SCRATCH (data "__kheap"), .leaRegLabel .r12 heapPtr, store64 .r12 0 SCRATCH]

def heapAllocCalls (dst : Reg) (size : Operand) : List Call :=
  saving [.r12] ([.leaRegLabel .r12 heapPtr, load64 SCRATCH .r12 0, .movRegReg dst SCRATCH] ++ size.mov .r11 ++
    [addRegReg SCRATCH .r11, store64 .r12 0 SCRATCH])

theorem heapInit_appends (size : Int) (g : CodeGenerator) : Appends (.kernelHeapInit size) g heapInitCalls := by
  intro g' emission
  simp only [emitOp, kernelHeapInit, reserve_bind_ok, asm_ok] at emission
  rw [emission]
  simp [heapInitCalls, heapPtr]

theorem heapAlloc_appends {g : CodeGenerator} {dest : String} {dst : Reg} (ok : resolve dest = .ok dst) {size : Expr}
    {o : Operand} (found : g.operand size = .ok o) : Appends (.kernelHeapAlloc dest size) g (heapAllocCalls dst o) := by
  intro g' emission
  simp only [emitOp, kernelHeapAlloc, reg_bind_ok, ok, Except.ok.injEq, exists_eq_left', asm_bind_ok, asm_ok,
    @operand_bind_ok _ _ _ _ _ _ ((operand_withScript g _ size).trans found)] at emission
  rw [emission]
  simp [heapAllocCalls, saving, heapPtr]

variable {L : Listing} {M : Machine}

theorem heapInit_meets (c : Cpu) :
    L.Meets heapInitCalls c fun d =>
      d.mem.load (L.address heapPtr) 8 = L.address (data "__kheap") ∧ d.reg .rsp = c.reg .rsp := by
  refine .straight (d := (((c.set SCRATCH (L.address (data "__kheap"))).set .r12 (L.address heapPtr))).setMem
    (c.mem.store (L.address heapPtr) 8 (L.address (data "__kheap")))) ?_ ?_
  · simp [heapInitCalls, store64, SCRATCH]
  · simp [SCRATCH]

theorem heapAlloc_meets {dst : Reg} (user : User dst) (other : dst ≠ .r12) (n : Int) {c : Cpu}
    (clear : Separate (c.reg .rsp - 8) 8 (L.address heapPtr) 8) :
    L.Meets (heapAllocCalls dst (.imm n)) c fun d => d.reg dst = c.mem.load (L.address heapPtr) 8 ∧
      d.mem.load (L.address heapPtr) 8 = c.mem.load (L.address heapPtr) 8 + BitVec.ofInt 64 n := by
  obtain ⟨notSp, -, notR11, notScratch⟩ := (user_iff dst).mp user
  refine .saving (by decide) (by decide) (by decide) fun m saved => ?_
  have sp : m.reg .rsp = c.reg .rsp - 8 := by simpa using saved.sp
  have pointer : m.mem.load (L.address heapPtr) 8 = c.mem.load (L.address heapPtr) 8 := by
    have kept := saved.mem.sameOn (b := L.address heapPtr) (k := 8) (by simpa [sp] using clear)
    simpa using kept.load (i := 0) (by omega) (by omega)
  have apart := X64.Memory.store_sameOn (m := m.mem) (clear.symm (by decide))
  refine .straight (by simp [Operand.mov, load64, store64, SCRATCH, Ne.symm other]; rfl)
    ⟨?_, ?_, fun d back => ⟨?_, ?_⟩⟩
  · simp [Ne.symm notSp]
  · simpa [sp, pointer] using apart _
  · rw [back.others dst (by simpa using other) notSp]
    simp [pointer, notR11, notScratch]
  · rw [back.mem]
    simp [pointer]

/-! ### Runs -/

/-- The value of an expression of integers. -/
def constantValue (g : CodeGenerator) : Expr → Option Int
  | .binExpr op left right => do
    let l ← constantValue g left
    let r ← constantValue g right
    match op with
    | .add => some (l + r)
    | .sub => some (l - r)
    | .mul => some (l * r)
  | node => match g.operand node with
    | .ok (.imm v) => some v
    | _ => none

theorem operand_of_constant {g : CodeGenerator} {node : Expr} (leaf : node.IsLeaf) {v : Int}
    (constant : constantValue g node = some v) : g.operand node = .ok (.imm v) := by
  have leafValue {x : Except PyErr Operand} (constant : (match x with | .ok (.imm v) => some v | _ => none) = some v) :
      x = .ok (.imm v) := by
    split at constant
    · cases constant
      rfl
    · cases constant
  cases node with
  | binExpr => exact leaf.elim
  | _ =>
    simp only [constantValue] at constant
    exact leafValue constant

/-- An allocation that was executed: its operands, and the address it returned. -/
structure Allocation where
  dest : Reg
  size : Expr
  bytes : Nat
  start : Word

def Allocation.block (a : Allocation) : Word × Nat := (a.start, a.bytes)

/-- A run that initialises the heap and goes on with allocations of constant sizes, oldest first. In between the
program may do anything but write to the heap pointer. -/
inductive HeapRun (L : Listing) (M : Machine) (size : Int) : Cpu → List Allocation → Prop where
  | init {g : CodeGenerator} {c d : Cpu} (executes : Executes L M g (.kernelHeapInit size) c d) : HeapRun L M size d []
  | alloc {g : CodeGenerator} {dest : String} {dst : Reg} {bytes : Expr} {n : Nat} {c d : Cpu} {as : List Allocation}
      (run : HeapRun L M size c as) (named : resolve dest = .ok dst) (constant : constantValue g bytes = some (n : Int))
      (clear : Separate (c.reg .rsp - 8) 8 (L.address heapPtr) 8)
      (executes : Executes L M g (.kernelHeapAlloc dest bytes) c d) :
      HeapRun L M size d (as ++ [⟨dst, bytes, n, d.reg dst⟩])
  | other {c d : Cpu} {as : List Allocation} (run : HeapRun L M size c as)
      (kept : SameOn (L.address heapPtr) 8 c.mem d.mem) : HeapRun L M size d as

/-- No two blocks overlap, and every byte of a block is one of the heap's. -/
structure HeapSafe (heap : Word) (size : Int) (as : List Allocation) : Prop where
  disjoint : as.Pairwise fun a b => Disjoint (range a.start a.bytes) (range b.start b.bytes)
  inside : ∀ a ∈ as, range a.start a.bytes ⊆ range heap size.toNat

/-- A size that is a single constant, and a destination other than the register that holds the address of the heap
pointer meanwhile. -/
def Allocation.Plain (a : Allocation) : Prop := a.dest ≠ .r12 ∧ a.size.IsLeaf

/-- The heap pointer is behind the blocks, which lie one after the other. -/
theorem HeapRun.consecutive (loaded : L.Loaded M) {size : Int} {c : Cpu} {as : List Allocation}
    (run : HeapRun L M size c as) (plain : ∀ a ∈ as, a.Plain) :
    Consecutive (L.address (data "__kheap")) (as.map (·.block)) ∧
      c.mem.load (L.address heapPtr) 8 =
        L.address (data "__kheap") + BitVec.ofNat 64 (totalLength (as.map (·.block))) := by
  induction run with
  | init executes =>
    obtain ⟨pointer, -⟩ := executes.post loaded (heapInit_appends _ _) (heapInit_meets _)
    exact ⟨trivial, by simpa [totalLength] using pointer⟩
  | @alloc g dest dst bytes n c d as _ named constant clear executes ih =>
    obtain ⟨blocks, pointer⟩ := ih fun a member => plain a (List.mem_append_left _ member)
    obtain ⟨other, leaf⟩ := plain _ (List.mem_append_right _ List.mem_cons_self)
    have appends := heapAlloc_appends named (operand_of_constant leaf constant)
    obtain ⟨start, next⟩ := executes.post loaded appends (heapAlloc_meets (user_of_resolve named) other n clear)
    rw [pointer] at start next
    constructor
    · rw [List.map_append, List.map_singleton, Allocation.block, start]
      exact blocks.append_singleton n
    · rw [next]
      simp [totalLength, Allocation.block, BitVec.ofNat_add, BitVec.add_assoc]
  | other _ kept ih =>
    obtain ⟨blocks, pointer⟩ := ih plain
    have same := kept.load (i := 0) (k := 8) (by omega) (by omega)
    exact ⟨blocks, by simpa [pointer] using same⟩

/-- Allocations into other registers than R12 of single constants that sum up to no more than the heap are safe. -/
theorem heap_safe (loaded : L.Loaded M) {size : Int} {c : Cpu} {as : List Allocation} (run : HeapRun L M size c as)
    (plain : ∀ a ∈ as, a.Plain) (room : (as.map (·.bytes)).sum ≤ min size.toNat (2 ^ 64)) :
    HeapSafe (L.address (data "__kheap")) size as := by
  obtain ⟨consecutive, -⟩ := run.consecutive loaded plain
  have total : totalLength (as.map (·.block)) = (as.map (·.bytes)).sum := by
    simp [totalLength, Allocation.block, Function.comp_def]
  refine ⟨?_, fun a member => ?_⟩
  · have apart := consecutive.pairwise (by omega)
    rwa [List.pairwise_map] at apart
  · intro x inside
    have within := consecutive.subset (List.mem_map_of_mem member) inside
    simp only [range, Set.mem_ofPred_eq] at within ⊢
    omega

/-- `kernel:heap_init size` and `kernel:heap_alloc reg1 = 16` -/
theorem exists_heapRun (size : Int) : ∃ (L : Listing) (M : Machine) (c : Cpu) (start : Word), L.Loaded M ∧
    HeapRun L M size c [⟨.rax, .number 16, 16, start⟩] := by
  obtain ⟨L, M, loaded, calls, -, -⟩ := Listing.exists_loaded (heapInitCalls ++ heapAllocCalls .rax (.imm 16))
    [(data "__kheap", 1000), (heapPtr, 1016)] .silent (by decide)
  have here : L.At 0 (heapInitCalls ++ heapAllocCalls .rax (.imm 16)) := calls ▸ List.prefix_refl _
  obtain ⟨first, second⟩ := here.append _
  have named : resolve "reg1" = .ok .rax := by decide
  have init : Stands L (.new false) (.kernelHeapInit size) 0 heapInitCalls := ⟨⟨_, rfl, rfl⟩, first⟩
  obtain ⟨m, entered, -, sp⟩ := init.executes loaded (heapInit_appends size _) (heapInit_meets (Cpu.filled (L.address heapPtr)))
  have alloc : Stands L (.new false) (.kernelHeapAlloc "reg1" (.number 16)) _ (heapAllocCalls .rax (.imm 16)) :=
    ⟨⟨_, rfl, rfl⟩, second⟩
  have clear : Separate (m.reg .rsp - 8) 8 (L.address heapPtr) 8 := by
    rw [sp]
    change Separate (L.address heapPtr - 8) 8 (L.address heapPtr) 8
    constructor <;> bv_omega
  obtain ⟨d, allocated, -⟩ := alloc.executes loaded (heapAlloc_appends named rfl)
    (heapAlloc_meets (by decide) (by decide) 16 clear)
  exact ⟨L, M, d, _, loaded, .alloc (.init ⟨_, _, init, entered⟩) named rfl clear ⟨_, _, alloc, allocated⟩⟩

theorem heap_safe_whole : ∃ (L : Listing) (M : Machine) (c : Cpu) (as : List Allocation), as.length = 1 ∧
    HeapRun L M 16 c as ∧ HeapSafe (L.address (data "__kheap")) 16 as := by
  obtain ⟨L, M, c, start, loaded, run⟩ := exists_heapRun 16
  exact ⟨L, M, c, _, rfl, run, heap_safe loaded run (by simp [Allocation.Plain, Expr.IsLeaf]) (by simp)⟩

/-- A heap of eight bytes gives out sixteen. -/
theorem heap_unsafe : ¬∀ (L : Listing) (M : Machine) (size : Int) (c : Cpu) (as : List Allocation), L.Loaded M →
    HeapRun L M size c as → HeapSafe (L.address (data "__kheap")) size as := by
  intro safe
  obtain ⟨L, M, c, start, loaded, run⟩ := exists_heapRun 8
  obtain ⟨-, inside⟩ := safe L M 8 c _ loaded run
  have within := inside _ List.mem_cons_self
  -- Of sixteen consecutive bytes at most eight are among eight.
  have first := @within start (show (start - start).toNat < 16 by bv_omega)
  have ninth := @within (start + 8) (show (start + 8 - start).toNat < 16 by bv_omega)
  have last := @within (start + 15) (show (start + 15 - start).toNat < 16 by bv_omega)
  simp only [range, Set.mem_ofPred_eq, Int.reduceToNat] at first ninth last
  bv_omega

end Aclm.Codegen
