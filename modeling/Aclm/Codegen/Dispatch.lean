import Aclm.Codegen.Interrupts
import Aclm.Codegen.Ramfs

/-! The table of system calls over any run of its statements, and where a system call is taken. -/

set_option autoImplicit false

namespace Aclm.Codegen

open X64 (Word Reg Cpu Machine Memory)
open X64.Memory (Separate SameOn OnlyIn StackAt separate_offsets load_store_apart load_store_word)
open Encoder

variable {L : Listing} {M : Machine}

/-! ### The table -/

def systab (L : Listing) : Word := L.address (data "__systab")

/-- The handler that was registered last under a number that comes to the slot `k`. -/
def registeredFor (history : List (Int × String)) (k : Nat) : Option String :=
  (history.reverse.find? fun e => (e.1 % 64).toNat = k).map Prod.snd

/-- Where calls that come to the slot `k` are taken. -/
def takenTo (L : Listing) (history : List (Int × String)) (k : Nat) : Word :=
  ((registeredFor history k).map fun handler => L.address (lbl handler)).getD (L.address "__nosys")

theorem takenTo_concat (history : List (Int × String)) (e : Int × String) (k : Nat) :
    takenTo L (history ++ [e]) k = if (e.1 % 64).toNat = k then L.address (lbl e.2) else takenTo L history k := by
  unfold takenTo registeredFor
  rw [List.reverse_append, List.reverse_singleton, List.singleton_append, List.find?_cons]
  by_cases here : (e.1 % 64).toNat = k
  · simp [here]
  · simp [here]

/-- The slots lead to the handlers. -/
def Leads (L : Listing) (m : Memory) (history : List (Int × String)) : Prop :=
  ∀ k < 64, m.load (systab L + BitVec.ofNat 64 (8 * k)) 8 = takenTo L history k

theorem Leads.sameOn {m m' : Memory} {history : List (Int × String)} (leads : Leads L m history)
    (same : SameOn (systab L) 512 m m') : Leads L m' history :=
  fun k less => (same.load (by omega) (by decide)).trans (leads k less)

theorem slots_apart {a : Word} {i j : Nat} (other : i ≠ j) (less : i < 64) (less' : j < 64) :
    Separate (a + BitVec.ofNat 64 (8 * i)) 8 (a + BitVec.ofNat 64 (8 * j)) 8 :=
  separate_offsets (by omega) (by decide) (by omega) (by omega) (by decide)

/-! ### Filling it -/

def fillRounds (loop : String) : List Call :=
  [Call.leaRegLabel .rax "__nosys", .leaRegLabel .rdi (data "__systab"), .movRegImm64 .rcx 64] ++
    repeated "neq" loop [store64 .rdi 0 .rax, addRegImm .rdi 8, subRegImm .rcx 1, testRegReg .rcx .rcx]

/-- All but the last `n` slots have been filled. -/
structure SlotsFilled (L : Listing) (m : Cpu) (n : Nat) (d : Cpu) : Prop where
  le : n ≤ 64
  rdi : d.reg .rdi = systab L + BitVec.ofNat 64 (8 * (64 - n))
  rcx : d.reg .rcx = BitVec.ofNat 64 n
  rax : d.reg .rax = L.address "__nosys"
  slots : ∀ k < 64 - n, d.mem.load (systab L + BitVec.ofNat 64 (8 * k)) 8 = L.address "__nosys"
  only : OnlyIn (systab L) 512 m.mem d.mem
  sp : d.reg .rsp = m.reg .rsp

theorem slotRound_meets {m d : Cpu} {n : Nat} (filled : SlotsFilled L m (n + 1) d) :
    L.Meets [store64 .rdi 0 .rax, addRegImm .rdi 8, subRegImm .rcx 1, testRegReg .rcx .rcx] d fun e =>
      SlotsFilled L m n e ∧ X64.Cond.ne.holds e.flags = decide (n ≠ 0) := by
  obtain ⟨le, rdi, rcx, rax, slots, only, sp⟩ := filled
  obtain ⟨i, sum⟩ : ∃ i, 64 - (n + 1) = i := ⟨_, rfl⟩
  rw [sum] at rdi slots
  have next : 64 - n = i + 1 := by omega
  have cursor : systab L + BitVec.ofNat 64 (8 * i) + 8#64 = systab L + BitVec.ofNat 64 (8 * (i + 1)) := by bv_omega
  let k := ((d.setMem (d.mem.store (systab L + BitVec.ofNat 64 (8 * i)) 8 (L.address "__nosys"))).set .rdi
    (systab L + BitVec.ofNat 64 (8 * (i + 1)))).setFlags (d.flags.add (systab L + BitVec.ofNat 64 (8 * i)) 8 false)
  have front : effects L.env L.address [store64 .rdi 0 .rax, addRegImm .rdi 8] d = some k := by
    simp [store64, rdi, rax, k, cursor]
  obtain ⟨f, ran, zf⟩ := @count_effects k L.env L.address .rcx n (by omega) (by simpa [k] using rcx)
  refine .straight (d := (k.set .rcx (BitVec.ofNat 64 n)).setFlags f) ?_ ⟨⟨by omega, ?_, ?_, ?_, ?_, ?_, ?_⟩, zf⟩
  · change effects L.env L.address ([store64 .rdi 0 .rax, addRegImm .rdi 8] ++ [subRegImm .rcx 1, testRegReg .rcx .rcx]) d = _
    rw [effects_append, front, Option.bind_some, ran]
  · simp [k, next]
  · simp
  · simpa [k] using rax
  · intro j less
    rw [next] at less
    change (d.mem.store (systab L + BitVec.ofNat 64 (8 * i)) 8 (L.address "__nosys")).load _ 8 = _
    rcases Nat.lt_succ_iff_lt_or_eq.mp less with earlier | rfl
    · rw [load_store_apart (slots_apart (by omega) (by omega) (by omega))]
      exact slots j earlier
    · exact load_store_word _ _ _
  · exact only.trans (.store _ (by omega) (by decide) _)
  · simpa [k] using sp

theorem fillTable_meets {c : Cpu} (clear : StackClear L c 24 "__systab" 512) (loop : String) :
    L.Meets (saving [.rax, .rcx, .rdi] (fillRounds loop)) c fun d => Leads L d.mem [] ∧ d.reg .rsp = c.reg .rsp := by
  refine .saving (by decide) (by decide) (by decide) fun m saved => ?_
  have entered : L.Meets [.leaRegLabel .rax "__nosys", .leaRegLabel .rdi (data "__systab"), .movRegImm64 .rcx 64] m
      (SlotsFilled L m 64) := by
    refine .straight (d := ((m.set .rax (L.address "__nosys")).set .rdi (systab L)).set .rcx 64) (by simp [systab])
      ⟨Nat.le_refl _, ?_, ?_, ?_, ?_, ?_, ?_⟩
    · simp
    · simp
    · simp
    · intro k less
      omega
    · exact .refl _ _ _
    · simp
  refine (entered.append fun k filled =>
    .repeated (show jumpCondition "neq" = some .ne by decide) (fun n d => slotRound_meets) filled).mono fun k filled => ?_
  exact ⟨filled.sp, saved.keeps clear (by decide) filled.only,
    fun d back => ⟨fun j less => back.mem ▸ filled.slots j less, back.sp⟩⟩

/-! ### What is emitted -/

def nosysStub : List Call := [.label "__nosys", .movRegImm64 .rax 0xFFFFFFFFFFFFFFFF, sysret]

/-- A call is taken to the handler of its slot. -/
def takeCall : List Call :=
  [.label "__syscall_dispatch", .pushReg .rbx, .movRegReg .rbx .rax, andRegImm .rbx 63, .leaRegLabel .rax (data "__systab"),
    shlRegImm8 .rbx 3, addRegReg .rax .rbx, load64 .rax .rax 0]

def dispatchStub : List Call := takeCall ++ [callReg .rax] ++ [.popReg .rbx] ++ [sysret]

/-- The register of the processor for the entry is set. -/
def pointLstar : List Call :=
  [.movRegImm64 .rcx 0xC0000082, .leaRegLabel .rax "__syscall_dispatch", .movRegReg .rdx .rax, shrRegImm8 .rdx 32, wrmsr]

/-- The code of the table's statement, with a stub or with nothing for each of `skip` and `skip'`. -/
def tableCalls (skip skip' : List Call) (loop : String) : List Call :=
  skip ++ saving [.rax, .rcx, .rdi] (fillRounds loop) ++ skip' ++ saving [.rax, .rcx, .rdx] pointLstar

theorem kernelSyscallTableInit_eq : kernelSyscallTableInit = (do
    reserve "__systab" (zeroBytes 512)
    once .nosys (around "__after_nosys" nosysStub)
    asm [.pushReg .rax, .pushReg .rcx, .pushReg .rdi, .leaRegLabel .rax "__nosys", .leaRegLabel .rdi (data "__systab"),
      .movRegImm64 .rcx 64]
    let loop ← newLabel "sti"
    asm [.label loop, store64 .rdi 0 .rax, addRegImm .rdi 8, subRegImm .rcx 1, testRegReg .rcx .rcx, .jcc "neq" loop,
      .popReg .rdi, .popReg .rcx, .popReg .rax]
    once .sysdispatch (around "__after_sysdispatch" dispatchStub)
    asm (saving [.rax, .rcx, .rdx] pointLstar)) := rfl

theorem stub_ok {g g' : CodeGenerator} {stub : Stub} {after : String} {calls tail : List Call}
    (emission : g' = (onced g stub (around after calls)).withScript ((onced g stub (around after calls)).script ++ tail)) :
    ∃ skip, g'.script = g.script ++ (skip ++ tail) ∧ (∀ (L : Listing) (c : Cpu), L.Meets skip c (· = c)) ∧
      (stub ∉ g.emitted → skip = around after calls) := by
  obtain ⟨skip, script, skips⟩ := onced_script g stub after calls
  refine ⟨skip, ?_, skips, fun first => List.append_cancel_left (script.symm.trans (onced_first first _))⟩
  rw [emission, CodeGenerator.withScript_script, script, List.append_assoc]

theorem tableInit_emitted {g g' : CodeGenerator} (emission : emitOp .kernelSyscallTableInit g = .ok () g') :
    ∃ skip loop skip', g'.script = g.script ++ tableCalls skip skip' loop ∧
      (∀ (L : Listing) (c : Cpu), L.Meets skip c (· = c)) ∧ (∀ (L : Listing) (c : Cpu), L.Meets skip' c (· = c)) ∧
        (.nosys ∉ g.emitted → skip = around "__after_nosys" nosysStub) ∧
          (.sysdispatch ∉ g.emitted → skip' = around "__after_sysdispatch" dispatchStub) := by
  have kept := reserved_emitted g "__systab" (zeroBytes 512)
  obtain ⟨skip, script, skips⟩ := onced_script (reserved g "__systab" (zeroBytes 512)) .nosys "__after_nosys" nosysStub
  simp only [emitOp, kernelSyscallTableInit_eq, reserve_bind_ok, once_bind_ok, asm_bind_ok, newLabel_bind_ok, asm_ok] at emission
  obtain ⟨skip', script', skips', first⟩ := stub_ok emission
  refine ⟨skip, freshLabel "sti" ((onced (reserved g "__systab" (zeroBytes 512)) .nosys
    (around "__after_nosys" nosysStub)).labelI + 1), skip', ?_, skips, skips', fun fresh => ?_, fun fresh => first ?_⟩
  · rw [script']
    simp [script, tableCalls, saving, fillRounds, repeated]
  · exact List.append_cancel_left (script.symm.trans (onced_first (kept ▸ fresh) _))
  · change Stub.sysdispatch ∉ (onced (reserved g "__systab" (zeroBytes 512)) .nosys _).emitted
    unfold onced
    split
    · rwa [kept]
    · rw [kept]
      simp [fresh]

/-! ### The statements -/

theorem tableInit_meets {c : Cpu} (clear : StackClear L c 24 "__systab" 512) {skip skip' : List Call} (loop : String)
    (skips : ∀ c : Cpu, L.Meets skip c (· = c)) (skips' : ∀ c : Cpu, L.Meets skip' c (· = c)) :
    L.Meets (tableCalls skip skip' loop) c fun d => Leads L d.mem [] := by
  have filled : L.Meets (skip ++ saving [.rax, .rcx, .rdi] (fillRounds loop) ++ skip') c
      fun d => Leads L d.mem [] ∧ d.reg .rsp = c.reg .rsp :=
    .append (.append (skips c) fun m same => same ▸ fillTable_meets clear loop) fun m filled =>
      .mono (skips' m) fun d same => same ▸ filled
  refine .append filled fun m filled => ?_
  obtain ⟨leads, sp⟩ := filled
  refine .saving (by decide) (by decide) (by decide) fun k saved => ?_
  have clear' : Separate (m.reg .rsp - 24) 24 (systab L) 512 := by
    rw [sp]
    exact clear
  refine .straight (by simp [pointLstar]; rfl) ⟨?_, ?_, fun d back => ?_⟩
  · simp
  · exact saved.keeps clear' (by decide) (.refl _ _ _)
  · exact back.mem ▸ leads.sameOn (saved.sameOn clear')

def syscallRegisterCalls (nr : Int) (handler : String) : List Call :=
  [Call.leaRegLabel .rax (lbl handler), .leaRegLabel .rdi (data "__systab"), addRegImm .rdi (nr % 64 * 8), store64 .rdi 0 .rax]

theorem register_appends (g : CodeGenerator) (nr : Int) (handler : String) :
    Appends (.kernelSyscallRegister nr handler) g (saving [.rax, .rdi] (syscallRegisterCalls nr handler)) := by
  intro g' emission
  simp only [emitOp, kernelSyscallRegister, reserve_bind_ok, asm_ok] at emission
  rw [emission]
  simp [saving, syscallRegisterCalls]

theorem register_meets {c : Cpu} {history : List (Int × String)} (leads : Leads L c.mem history)
    (clear : StackClear L c 16 "__systab" 512) (nr : Int) (handler : String) :
    L.Meets (saving [.rax, .rdi] (syscallRegisterCalls nr handler)) c fun d => Leads L d.mem (history ++ [(nr, handler)]) := by
  obtain ⟨k, slot⟩ : ∃ k, (nr % 64).toNat = k := ⟨_, rfl⟩
  have less : k < 64 := by omega
  have offset : BitVec.ofInt 64 (nr % 64 * 8) = BitVec.ofNat 64 (8 * k) := by
    rw [← BitVec.ofInt_natCast]
    congr 1
    omega
  refine .saving (by decide) (by decide) (by decide) fun m saved => ?_
  have only : OnlyIn (systab L) 512 m.mem (m.mem.store (systab L + BitVec.ofNat 64 (8 * k)) 8 (L.address (lbl handler))) :=
    .store _ (by omega) (by decide) _
  refine .mono (P := fun d => d.reg .rsp = m.reg .rsp ∧
    d.mem = m.mem.store (systab L + BitVec.ofNat 64 (8 * k)) 8 (L.address (lbl handler)))
    (.straight (by simp [syscallRegisterCalls, store64, offset]; rfl) ⟨?_, ?_⟩) fun d done => ?_
  · simp
  · simp [systab]
  obtain ⟨sp, mem⟩ := done
  refine ⟨sp, mem ▸ saved.keeps clear (by decide) only, fun e back j inside => ?_⟩
  rw [back.mem, mem, takenTo_concat, slot]
  by_cases same : k = j
  · rw [if_pos same, same]
    exact load_store_word _ _ _
  · rw [if_neg same, load_store_apart (slots_apart same less inside)]
    exact leads.sameOn (saved.sameOn clear) j inside

/-- A run in which the table has been filled and these handlers have been registered since. In between the program may do
anything but write to the table. -/
inductive SystabRun (L : Listing) (M : Machine) : Cpu → List (Int × String) → Prop where
  | init {g : CodeGenerator} {c d : Cpu} (clear : StackClear L c 24 "__systab" 512)
      (executes : Executes L M g .kernelSyscallTableInit c d) : SystabRun L M d []
  | register {g : CodeGenerator} {nr : Int} {handler : String} {c d : Cpu} {history : List (Int × String)}
      (run : SystabRun L M c history) (clear : StackClear L c 16 "__systab" 512)
      (executes : Executes L M g (.kernelSyscallRegister nr handler) c d) : SystabRun L M d (history ++ [(nr, handler)])
  | other {c d : Cpu} {history : List (Int × String)} (run : SystabRun L M c history)
      (kept : SameOn (systab L) 512 c.mem d.mem) : SystabRun L M d history

theorem Stands.tableInit (loaded : L.Loaded M) {g : CodeGenerator} {i : Nat} {calls : List Call}
    (stands : Stands L g .kernelSyscallTableInit i calls) {c : Cpu} (clear : StackClear L c 24 "__systab" 512) :
    ∃ d, M.Completes (L.offset i) (L.offset (i + calls.length)) c d ∧ Leads L d.mem [] := by
  obtain ⟨⟨g', emission, script⟩, here⟩ := stands
  obtain ⟨skip, loop, skip', script', skips, skips', -, -⟩ := tableInit_emitted emission
  obtain rfl := List.append_cancel_left (script.symm.trans script')
  obtain ⟨d, run, leads⟩ := tableInit_meets clear loop (skips L) (skips' L) i here
  exact ⟨d, loaded.inside run, leads⟩

theorem SystabRun.leads (loaded : L.Loaded M) {c : Cpu} {history : List (Int × String)} (run : SystabRun L M c history) :
    Leads L c.mem history := by
  induction run with
  | init clear executes =>
    obtain ⟨i, calls, stands, completes⟩ := executes
    obtain ⟨d, completes', leads⟩ := stands.tableInit loaded clear
    exact completes.unique completes' ▸ leads
  | register _ clear executes ih => exact executes.post loaded (register_appends _ _ _) (register_meets ih clear _ _)
  | other _ kept ih => exact ih.sameOn kept

/-! ### A call is taken -/

/-- The word below the stack pointer is outside the table. -/
def CallClear (L : Listing) (c : Cpu) : Prop := StackClear L c 8 "__systab" 512

/-- What the dispatcher has done up to its call: RAX has the address of the handler, and RBX is on the stack. -/
structure Taking (L : Listing) (history : List (Int × String)) (c d : Cpu) : Prop where
  rax : d.reg .rax = takenTo L history ((c.reg .rax).toNat % 64)
  rbx : d.reg .rbx = BitVec.ofNat 64 (8 * ((c.reg .rax).toNat % 64))
  sp : d.reg .rsp = c.reg .rsp - 8
  others : ∀ r, r ∉ [Reg.rax, .rbx, .rsp] → d.reg r = c.reg r
  mem : d.mem = c.mem.store (c.reg .rsp - 8) 8 (c.reg .rbx)

theorem slot_of_number (v : Word) : (v &&& 63) <<< 3 = BitVec.ofNat 64 (8 * (v.toNat % 64)) := by
  have number : (v &&& 63).toNat = v.toNat % 64 := by
    rw [BitVec.toNat_and]
    exact Nat.and_two_pow_sub_one_eq_mod v.toNat 6
  apply BitVec.eq_of_toNat_eq
  rw [BitVec.toNat_shiftLeft, number, Nat.shiftLeft_eq, BitVec.toNat_ofNat]
  omega

theorem takeCall_meets {c : Cpu} {history : List (Int × String)} (leads : Leads L c.mem history) (clear : CallClear L c) :
    L.Meets takeCall c (Taking L history c) := by
  obtain ⟨n, number⟩ : ∃ n, (c.reg .rax).toNat % 64 = n := ⟨_, rfl⟩
  have less : n < 64 := by omega
  -- The slot is read after the push.
  have slot : (c.mem.store (c.reg .rsp - 8) 8 (c.reg .rbx)).load (systab L + BitVec.ofNat 64 (8 * n)) 8 = takenTo L history n :=
    (load_store_apart (clear.right (by omega) (by decide)) _).trans (leads n less)
  change L.Meets ([.label "__syscall_dispatch", .pushReg .rbx, .movRegReg .rbx .rax, andRegImm .rbx 63,
    .leaRegLabel .rax (data "__systab")] ++ [shlRegImm8 .rbx 3, addRegReg .rax .rbx, load64 .rax .rax 0]) c _
  refine .append (P := fun m => m.reg .rax = systab L ∧ m.reg .rbx = c.reg .rax &&& 63 ∧ m.reg .rsp = c.reg .rsp - 8 ∧
    (∀ r, r ∉ [Reg.rax, .rbx, .rsp] → m.reg r = c.reg r) ∧ m.mem = c.mem.store (c.reg .rsp - 8) 8 (c.reg .rbx))
    (.straight (by simp; rfl) ⟨?_, ?_, ?_, fun r other => ?_, ?_⟩) fun m entered => ?_
  · simp [systab]
  · simp
  · simp
  · simp only [List.mem_cons, List.not_mem_nil, or_false, not_or] at other
    simp [other]
  · simp
  obtain ⟨rax, rbx, sp, others, mem⟩ := entered
  obtain ⟨f, shift⟩ : ∃ f, (shlRegImm8 .rbx 3).effect L.env L.address m =
      some ((m.set .rbx (m.reg .rbx <<< 3)).setFlags f) := ⟨_, effect_shlRegImm8 L.env L.address m .rbx (by decide)⟩
  have place : (c.reg .rax &&& 63#64) <<< 3 = BitVec.ofNat 64 (8 * n) := number ▸ slot_of_number _
  refine .straight (by simp [shift, load64, rax, rbx]; rfl) ⟨?_, ?_, ?_, fun r other => ?_, ?_⟩
  · simpa [mem, place, number] using slot
  · simpa [number] using place
  · simpa using sp
  · have kept := others r other
    simp only [List.mem_cons, List.not_mem_nil, or_false, not_or] at other
    simpa [other] using kept
  · simpa using mem

/-- The handler has been called. -/
structure Taken (L : Listing) (M : Machine) (history : List (Int × String)) (c : Cpu) (back : Word) (t : X64.State) : Prop where
  pc : t.pc = (takenTo L history ((c.reg .rax).toNat % 64) - M.base).toNat
  rbx : t.cpu.reg .rbx = BitVec.ofNat 64 (8 * ((c.reg .rax).toNat % 64))
  sp : t.cpu.reg .rsp = c.reg .rsp - 16
  stack : StackAt t.cpu.mem (c.reg .rsp - 16) [back, c.reg .rbx]
  others : ∀ r, r ∉ [Reg.rax, .rbx, .rsp] → t.cpu.reg r = c.reg r
  mem : ∀ x : Word, 16 ≤ (x - (c.reg .rsp - 16)).toNat → t.cpu.mem x = c.mem x

/-- A handler that came back with `e` has been left for the caller. -/
structure CallReturned (M : Machine) (c e : Cpu) (t : X64.State) : Prop where
  rip : M.address t.pc = e.reg .rcx
  flags : t.cpu.flags = .ofWord (e.reg .r11)
  rbx : t.cpu.reg .rbx = c.reg .rbx
  sp : t.cpu.reg .rsp = c.reg .rsp
  others : ∀ r, r ∉ [Reg.rbx, .rsp] → t.cpu.reg r = e.reg r
  mem : t.cpu.mem = e.mem

theorem address_back (v : Word) : M.address (v - M.base).toNat = v := by
  rw [Machine.address, BitVec.ofNat_toNat, BitVec.setWidth_eq]
  bv_omega

theorem Taken.rip {history : List (Int × String)} {c : Cpu} {back : Word} {t : X64.State}
    (taken : Taken L M history c back t) : M.address t.pc = takenTo L history ((c.reg .rax).toNat % 64) := by
  rw [taken.pc, address_back]

theorem Taking.call {history : List (Int × String)} {c d : Cpu} (taking : Taking L history c d) (next : Nat) :
    ∃ t, M.perform (.callReg .rax) next d = some t ∧ Taken L M history c (M.address next) t := by
  obtain ⟨rax, rbx, sp, others, mem⟩ := taking
  have lower : c.reg .rsp - 8 - 8 = c.reg .rsp - 16 := by bv_omega
  have saved : StackAt d.mem (c.reg .rsp - 8) [c.reg .rbx] := ⟨mem ▸ load_store_word _ _ _, trivial⟩
  refine ⟨_, rfl, ?_, ?_, ?_, ?_, fun r other => ?_, fun x far => ?_⟩
  · rw [rax]
  · simpa using rbx
  · rw [← lower, ← sp]
    rfl
  · have pushed := saved.push (M.address next) (by simp)
    rw [lower] at pushed
    change StackAt (d.mem.store (d.reg .rsp - 8) 8 (M.address next)) _ _
    rwa [sp, lower]
  · have kept := others r other
    simp only [List.mem_cons, List.not_mem_nil, or_false, not_or] at other
    simpa [other] using kept
  · have first : d.mem x = c.mem x := mem ▸ X64.Memory.store_of_le (by bv_omega)
    exact (X64.Memory.store_of_le (by rw [sp]; bv_omega)).trans first

theorem popped_callReturned {c e : Cpu} (sp : e.reg .rsp = c.reg .rsp - 8)
    (saved : e.mem.load (c.reg .rsp - 8) 8 = c.reg .rbx) (next : Nat) :
    ∃ t, M.perform .sysret next (e.pop.2.set .rbx e.pop.1) = some t ∧ CallReturned M c e t := by
  refine ⟨_, rfl, ?_, ?_, ?_, ?_, fun r other => ?_, ?_⟩
  · exact address_back _
  · rfl
  · change e.mem.load (e.reg .rsp) 8 = c.reg .rbx
    rw [sp, saved]
  · change e.reg .rsp + 8 = c.reg .rsp
    bv_omega
  · simp only [List.mem_cons, List.not_mem_nil, or_false, not_or] at other
    simp [other]
  · rfl

theorem dispatch_called (loaded : L.Loaded M) {c : Cpu} {history : List (Int × String)} (run : SystabRun L M c history)
    {g : CodeGenerator} (first : .sysdispatch ∉ g.emitted) {i : Nat} {calls : List Call}
    (stands : Stands L g .kernelSyscallTableInit i calls) {j : Nat} (entry : L.Defines j "__syscall_dispatch")
    (clear : CallClear L c) : ∃ k t, M.Steps ⟨L.offset j, c⟩ t ∧ Taken L M history c (M.address (L.offset k)) t ∧
      L.At k [.popReg .rbx] ∧ L.At (k + 1) [sysret] := by
  obtain ⟨⟨g', emission, script⟩, here⟩ := stands
  obtain ⟨skip, loop, skip', script', -, -, -, stub⟩ := tableInit_emitted emission
  obtain rfl := List.append_cancel_left (script.symm.trans script')
  rw [stub first, tableCalls] at here
  obtain ⟨front, -⟩ := here.append _
  obtain ⟨-, whole⟩ := front.append _
  obtain ⟨whole, -⟩ := whole.append _
  obtain ⟨-, inner⟩ := whole.append [.jmp "__after_sysdispatch"]
  obtain ⟨inner, last⟩ := inner.append (takeCall ++ [callReg .rax] ++ [.popReg .rbx])
  obtain ⟨inner, pop⟩ := inner.append (takeCall ++ [callReg .rax])
  obtain ⟨take, call⟩ := inner.append takeCall
  obtain ⟨p, place⟩ : ∃ p, i + (skip ++ saving [.rax, .rcx, .rdi] (fillRounds loop)).length +
    [Call.jmp "__after_sysdispatch"].length = p := ⟨_, rfl⟩
  rw [place] at take call pop last
  obtain ⟨d, taken, taking⟩ := takeCall_meets (run.leads loaded) clear p take
  obtain ⟨t, performed, called⟩ := taking.call (M := M) (L.offset (p + (takeCall ++ [callReg .rax]).length))
  refine ⟨_, t, ?_, called, pop, last⟩
  have steps := (loaded.inside taken).steps
  rw [← offset_unique loaded entry (take.append [.label "__syscall_dispatch"]).1] at steps
  exact steps.trans (loaded.perform call (by decide) rfl performed).steps

/-- The handler "read" has been registered for the call 3, and the call `n` is made. -/
theorem exists_registered (n : Word) : ∃ (L : Listing) (M : Machine) (c : Cpu) (calls : List Call), L.Loaded M ∧
    SystabRun L M c [(3, "read")] ∧ c.reg .rax = n ∧ CallClear L c ∧
      Stands L (.new false) .kernelSyscallTableInit 0 calls ∧ L.Defines 21 "__syscall_dispatch" ∧ L.Defines 1 "__nosys" ∧
        L.offset 1 < 2 ^ 64 := by
  obtain ⟨L, M, loaded, calls, -, base, offs⟩ := Listing.exists_loaded_data
    (tableCalls (around "__after_nosys" nosysStub) (around "__after_sysdispatch" dispatchStub) "__aclm_sti_1" ++
      (saving [.rax, .rdi] (syscallRegisterCalls 3 "read") ++ [.label (lbl "read")])) [(data "__systab", 10000)] .silent
    (by decide +kernel)
  have tableAt : L.address (data "__systab") = 10000 := by
    rw [Listing.address, base, offs (data "__systab") (by decide +kernel)]
    rfl
  have here : L.At 0 L.calls := List.prefix_refl _
  rw [calls] at here
  obtain ⟨first, second⟩ := here.append _
  obtain ⟨second, -⟩ := second.append _
  have init : Stands L (.new false) .kernelSyscallTableInit 0 _ := ⟨⟨_, rfl, rfl⟩, first⟩
  have register : Stands L (.new false) (.kernelSyscallRegister 3 "read") _ _ := ⟨⟨_, rfl, rfl⟩, second⟩
  have small : L.offset 1 < 2 ^ 64 := by
    rw [Listing.offset, calls]
    cases L.deterministic <;> decide +kernel
  have clear {c : Cpu} (sp : c.reg .rsp = 5007) : StackClear L c 24 "__systab" 512 := by
    rw [StackClear, tableAt, sp]
    constructor <;> decide
  obtain ⟨m, completes, -⟩ := init.tableInit loaded (clear (c := Cpu.filled 5007) rfl)
  have run : SystabRun L M (m.set .rsp 5007) [] :=
    .other (.init (clear rfl) ⟨_, _, init, completes⟩) (.refl _ _ _)
  have clear' : StackClear L (m.set .rsp 5007) 16 "__systab" 512 := (clear rfl).mono (by decide) (by decide)
  obtain ⟨d, completes', -⟩ :=
    register.executes loaded (register_appends _ _ _) (register_meets (run.leads loaded) clear' _ _)
  exact ⟨L, M, (d.set .rsp 5007).set .rax n, _, loaded,
    .other (run.register clear' ⟨_, _, register, completes'⟩) (.refl _ _ _), rfl, (clear rfl).mono (by decide) (by decide),
    init, here.part 21 ⟨_, rfl⟩, here.part 1 ⟨_, rfl⟩, small⟩

/-- After any run of the statements, a system call is taken to the handler that was registered last for its slot; when the
handler comes back, the caller goes on with its own RBX and stack. -/
theorem dispatch_taken (loaded : L.Loaded M) {c : Cpu} {history : List (Int × String)} (run : SystabRun L M c history)
    {g : CodeGenerator} (first : .sysdispatch ∉ g.emitted) {i : Nat} {calls : List Call}
    (stands : Stands L g .kernelSyscallTableInit i calls) {j : Nat} (entry : L.Defines j "__syscall_dispatch")
    (clear : CallClear L c) : ∃ k t, M.Steps ⟨L.offset j, c⟩ t ∧ Taken L M history c (M.address (L.offset k)) t ∧
      ∀ e : Cpu, e.reg .rsp = c.reg .rsp - 8 → e.mem.load (c.reg .rsp - 8) 8 = c.reg .rbx →
        ∃ t', M.Steps ⟨L.offset k, e⟩ t' ∧ CallReturned M c e t' := by
  obtain ⟨k, t, steps, taken, pop, last⟩ := dispatch_called loaded run first stands entry clear
  refine ⟨k, t, steps, taken, fun e sp saved => ?_⟩
  obtain ⟨t', left, returned⟩ := popped_callReturned (M := M) sp saved (L.offset (k + 1 + 1))
  exact ⟨t', (loaded.perform pop (by decide) rfl rfl).steps.trans (loaded.perform last (by decide) rfl left).steps, returned⟩

/-- Call 67 is taken to the handler of call 3. -/
theorem dispatch_taken_alias : ∃ (L : Listing) (M : Machine) (s t : X64.State),
    s.cpu.reg .rax = 67 ∧ M.Steps s t ∧ M.address t.pc = L.address (lbl "read") := by
  obtain ⟨L, M, c, calls, loaded, run, number, clear, stands, entry, -⟩ := exists_registered 67
  obtain ⟨k, t, steps, taken, -⟩ := dispatch_taken loaded run (by decide) stands entry clear
  refine ⟨L, M, _, t, number, steps, taken.rip.trans ?_⟩
  rw [number]
  exact (takenTo_concat [] _ _).trans (if_pos (by decide))

/-- A number without a handler: the caller gets -1, but its stack is 16 bytes lower and its RBX is lost. -/
theorem nosys_leaks (loaded : L.Loaded M) {c : Cpu} {history : List (Int × String)} (run : SystabRun L M c history)
    {g : CodeGenerator} (first : .nosys ∉ g.emitted) (first' : .sysdispatch ∉ g.emitted) {i : Nat} {calls : List Call}
    (stands : Stands L g .kernelSyscallTableInit i calls) {j : Nat} (entry : L.Defines j "__syscall_dispatch")
    (clear : CallClear L c) {n : Nat} (nosys : L.Defines n "__nosys") (fits : L.offset n < 2 ^ 64)
    (unregistered : registeredFor history ((c.reg .rax).toNat % 64) = none) :
    ∃ t, M.Steps ⟨L.offset j, c⟩ t ∧ M.address t.pc = c.reg .rcx ∧ t.cpu.reg .rax = 0xFFFFFFFFFFFFFFFF ∧
      t.cpu.reg .rbx = BitVec.ofNat 64 (8 * ((c.reg .rax).toNat % 64)) ∧ t.cpu.reg .rsp = c.reg .rsp - 16 := by
  obtain ⟨k, ⟨pc, d⟩, steps, taken, -, -⟩ := dispatch_called loaded run first' stands entry clear
  obtain ⟨⟨g', emission, script⟩, here⟩ := stands
  obtain ⟨skip, loop, skip', script', -, -, stub, -⟩ := tableInit_emitted emission
  obtain rfl := List.append_cancel_left (script.symm.trans script')
  rw [stub first, tableCalls] at here
  obtain ⟨whole, -⟩ := here.append _
  obtain ⟨whole, -⟩ := whole.append _
  obtain ⟨whole, -⟩ := whole.append _
  obtain ⟨whole, -⟩ := whole.append _
  obtain ⟨-, inner⟩ := whole.append [.jmp "__after_nosys"]
  obtain ⟨front, last⟩ := inner.append [.label "__nosys", .movRegImm64 .rax 0xFFFFFFFFFFFFFFFF]
  obtain ⟨p, place⟩ : ∃ p, i + [Call.jmp "__after_nosys"].length = p := ⟨_, rfl⟩
  rw [place] at front last
  -- The slot leads to the stub.
  have stubAt : takenTo L history ((c.reg .rax).toNat % 64) = L.address "__nosys" := by
    rw [takenTo, unregistered]
    rfl
  have there : pc = L.offset p := by
    rw [← offset_unique loaded nosys (front.append [.label "__nosys"]).1]
    refine taken.pc.trans ?_
    rw [stubAt, Listing.address, loaded.labels n _ nosys, loaded.base]
    simp only [Option.getD_some, BitVec.ofInt_natCast]
    bv_omega
  subst there
  have given : L.Meets [.label "__nosys", .movRegImm64 .rax 0xFFFFFFFFFFFFFFFF] d fun e =>
      e.reg .rax = 0xFFFFFFFFFFFFFFFF ∧ ∀ r, r ≠ .rax → e.reg r = d.reg r :=
    .straight (by simp; rfl) ⟨by simp, fun r other => by simp [other]⟩
  obtain ⟨e, ran, rax, others⟩ := given p front
  refine ⟨_, steps.trans ((loaded.inside ran).steps.trans (loaded.perform last (by decide) rfl rfl).steps), ?_, rax, ?_, ?_⟩
  · exact (address_back _).trans ((others .rcx (by decide)).trans (taken.others .rcx (by decide)))
  · exact (others .rbx (by decide)).trans taken.rbx
  · exact (others .rsp (by decide)).trans taken.sp

/-- Call 5 has no handler. -/
theorem nosys_leaks_five : ∃ (M : Machine) (s t : X64.State),
    s.cpu.reg .rax = 5 ∧ M.Steps s t ∧ t.cpu.reg .rsp = s.cpu.reg .rsp - 16 := by
  obtain ⟨L, M, c, calls, loaded, run, number, clear, stands, entry, nosys, small⟩ := exists_registered 5
  have unregistered : registeredFor [(3, "read")] ((c.reg .rax).toNat % 64) = none := by
    rw [number]
    decide
  obtain ⟨t, steps, -, -, -, sp⟩ := nosys_leaks loaded run (by decide) (by decide) stands entry clear nosys small unregistered
  exact ⟨M, _, t, number, steps, sp⟩

end Aclm.Codegen
