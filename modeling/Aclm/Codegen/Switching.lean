import Aclm.Codegen.Context

/-! Tasks that switch to each other find their registers as they left them. -/

set_option autoImplicit false

namespace Aclm.Codegen

open X64 (Word Reg Cpu Env Machine Memory)
open X64.Memory (Separate SameOn OnlyIn StackAt storeWords)
open Encoder

/-- The registers of a task: all but the stack pointer and the scratch register. -/
def TASK : List Reg := IRQ_GPRS ++ [.rbp]

/-- The block at `p` has the registers of a task, and its own address for R15. -/
def TaskAt (m : Memory) (p : Word) (regs : Reg → Word) : Prop := StackAt m p (IRQ_GPRS.map regs ++ [p] ++ [regs .rbp])

/-- The registers with which the task of a block was left the last time. -/
def latest (history : List (Word × (Reg → Word))) (p : Word) : Option (Reg → Word) :=
  (history.reverse.find? fun e => e.1 = p).map Prod.snd

theorem latest_concat (history : List (Word × (Reg → Word))) (e : Word × (Reg → Word)) (p : Word) :
    latest (history ++ [e]) p = if e.1 = p then some e.2 else latest history p := by
  unfold latest
  rw [List.reverse_append, List.reverse_singleton, List.singleton_append, List.find?_cons]
  by_cases here : e.1 = p
  · simp [here]
  · simp [here]

theorem mem_of_latest {history : List (Word × (Reg → Word))} {p : Word} {regs : Reg → Word}
    (left : latest history p = some regs) : ∃ e ∈ history, e.1 = p := by
  obtain ⟨e, found, -⟩ := Option.map_eq_some_iff.mp left
  exact ⟨e, List.mem_reverse.mp (List.mem_of_find?_eq_some found), by simpa using List.find?_some found⟩

theorem TaskAt.sameOn {m m' : Memory} {p : Word} {regs : Reg → Word} (holds : TaskAt m p regs) (same : SameOn p 128 m m') :
    TaskAt m' p regs := by
  have start : StackAt m (p + BitVec.ofNat 64 0) (IRQ_GPRS.map regs ++ [p] ++ [regs .rbp]) := by
    rw [BitVec.add_zero]
    exact holds
  have kept := same.stackAt start (show 0 + 8 * 15 ≤ 128 by decide) (by decide)
  rwa [BitVec.add_zero] at kept

variable {L : Listing} {M : Machine}

/-! ### One switch -/

/-- What code meets twice over it meets at once, since a run can only end in one state. -/
theorem meets_both (loaded : L.Loaded M) {calls : List Call} {c : Cpu} {P Q : Cpu → Prop} (first : L.Meets calls c P)
    (second : L.Meets calls c Q) : L.Meets calls c fun d => P d ∧ Q d := by
  intro i here
  obtain ⟨d, run, p⟩ := first i here
  obtain ⟨e, other, q⟩ := second i here
  have left : M.Completes (L.offset i) (L.offset (i + calls.length)) c d := loaded.inside run
  obtain rfl := left.unique (loaded.inside other)
  exact ⟨d, run, p, q⟩

/-- Saving writes to the block and to the word that it pushes. -/
theorem ctxSave_only {base : Reg} (user : User base) (c : Cpu) : L.Meets (ctxSaveCalls base) c fun d =>
    ∀ x : Word, 8 ≤ (x - (c.reg .rsp - 8)).toNat → 128 ≤ (x - c.reg base).toNat → d.mem x = c.mem x := by
  obtain ⟨notSp, -, -, -⟩ := (user_iff base).mp user
  obtain ⟨p, base_eq⟩ : ∃ p, c.reg base = p := ⟨_, rfl⟩
  obtain ⟨m, entered⟩ : ∃ m, (c.push p).set SCRATCH p = m := ⟨_, rfl⟩
  have mem : m.mem = c.mem.store (c.reg .rsp - 8) 8 p := by simp [← entered, X64.Cpu.push]
  have cursor : m.reg SCRATCH = p := by simp [← entered]
  obtain ⟨filled, stored⟩ : ∃ filled, storeWords m.mem p (BLOCK.map m.reg) = filled := ⟨_, rfl⟩
  have within : OnlyIn p 120 m.mem filled :=
    stored ▸ X64.Memory.storeWords_onlyIn m.mem p (BLOCK.map m.reg) (show 8 * 15 ≤ 2 ^ 64 by decide)
  have enter : effects L.env L.address [.pushReg base, .movRegReg SCRATCH base] c = some m := by
    simp [base_eq, notSp, ← entered]
  have fill : effects L.env L.address (contextStores BLOCK 0) m = some (m.setMem filled) := by
    rw [contextStores_effects, cursor, ← stored]
    simp
  have leave : ∃ d, effects L.env L.address [load64 .r11 .rsp 0, store64 SCRATCH 120 .rsp, .popReg base] (m.setMem filled) =
      some d ∧ d.mem = filled.store (p + 120#64) 8 (m.reg .rsp) := by
    have r11 : SCRATCH ≠ .r11 := by decide
    refine ⟨_, by simp [load64, store64, cursor, r11]; rfl, ?_⟩
    simp
  obtain ⟨d, left, last⟩ := leave
  refine .straight (d := d) ?_ fun x word block => ?_
  · change effects _ _ ([.pushReg base, .movRegReg SCRATCH base] ++ contextStores BLOCK 0 ++
      [load64 .r11 .rsp 0, store64 SCRATCH 120 .rsp, .popReg base]) c = _
    rw [effects_append, effects_append, enter, Option.bind_some, fill, Option.bind_some, left]
  · rw [base_eq] at block
    rw [last, X64.Memory.store_of_le (by bv_omega), within x (by omega), mem, X64.Memory.store_of_le word]

/-- Loading leaves the memory and the stack pointer alone. -/
theorem ctxLoad_only {base : Reg} (c : Cpu) :
    L.Meets (ctxLoadCalls base) c fun d => d.mem = c.mem ∧ d.reg .rsp = c.reg .rsp := by
  obtain ⟨ws, length, words⟩ : ∃ ws : List Word, IRQ_GPRS.length = ws.length ∧ StackAt c.mem (c.reg base) ws :=
    ⟨_, by rw [List.length_map, List.length_range]; rfl, X64.Memory.stackAt_read c.mem (c.reg base) 13⟩
  obtain ⟨m, ran, -, others, mem, -, -⟩ := @contextLoads_effects L.env L.address IRQ_GPRS ws 0 (c.set SCRATCH (c.reg base))
    length (by decide) (by decide) (by simpa using words)
  have enter : effects L.env L.address [.movRegReg SCRATCH base] c = some (c.set SCRATCH (c.reg base)) := by simp
  refine .straight (by
    change effects _ _ ([.movRegReg SCRATCH base] ++ contextLoads IRQ_GPRS 0 ++
      [load64 SCRATCH SCRATCH 104, load64 .rbp SCRATCH 112]) c = _
    rw [effects_append, effects_append, enter, Option.bind_some, ran, Option.bind_some]
    simp [load64]
    rfl) ⟨?_, ?_⟩
  · simpa using mem
  · have sp := others .rsp (by decide)
    simpa [SCRATCH] using sp

/-- The registers of the task come from its block. -/
theorem ctxLoad_meets {base : Reg} {c : Cpu} {regs : Reg → Word} (holds : TaskAt c.mem (c.reg base) regs) :
    L.Meets (ctxLoadCalls base) c fun d => ∀ r ∈ TASK, d.reg r = regs r := by
  have words : StackAt c.mem (c.reg base) ((IRQ_GPRS.map regs ++ [c.reg base]) ++ [regs .rbp]) := holds
  obtain ⟨front, last, -⟩ := words.append
  have length : (IRQ_GPRS.map regs).length = 13 := by rw [List.length_map]; rfl
  rw [List.length_append, length] at last
  obtain ⟨d, ran, values, rbp, -⟩ := @ctxLoad_effects L base _ _ c ⟨length, front⟩
  refine .straight ran fun r member => ?_
  rcases List.mem_append.mp member with member | member
  · have shape : CONTEXT = IRQ_GPRS ++ [SCRATCH] := rfl
    refine values (r, regs r) ?_
    rw [shape, List.zip_append (by rw [length]; rfl)]
    exact List.mem_append_left _ (mem_zip_map _ member)
  · obtain rfl := List.mem_singleton.mp member
    exact rbp.trans last

theorem coopSwitch_appends {g : CodeGenerator} {save load : String} {base base' : Reg} (named : resolve save = .ok base)
    (named' : resolve load = .ok base') :
    Appends (.kernelCoopSwitch save load) g (ctxSaveCalls base ++ ctxLoadCalls base') := by
  intro g' emission
  simp only [emitOp, kernelCoopSwitch, kernelCtxSave, kernelCtxLoad, bind_assoc, reg_bind_ok, named, named', Except.ok.injEq,
    exists_eq_left', asm_bind_ok, asm_ok] at emission
  rw [emission]
  simp [List.append_assoc]

/-! ### Runs -/

/-- Every block holds its task. -/
def Blocks (m : Memory) (history : List (Word × (Reg → Word))) : Prop := ∀ p regs, latest history p = some regs → TaskAt m p regs

/-- The block that is saved to, the word that is pushed and the blocks of the other tasks do not overlap. -/
structure Roomy (c : Cpu) (base : Reg) (history : List (Word × (Reg → Word))) : Prop where
  own : Separate (c.reg .rsp - 8) 8 (c.reg base) 128
  others : ∀ e ∈ history, e.1 ≠ c.reg base → Separate (c.reg base) 128 e.1 128
  word : ∀ e ∈ history, Separate (c.reg .rsp - 8) 8 e.1 128

/-- A run in which tasks are saved and switched between, with the blocks that they were saved to and the registers they had.
In between the program may do anything but write to the blocks. -/
inductive SwitchRun (L : Listing) (M : Machine) : Cpu → List (Word × (Reg → Word)) → Prop where
  | start (c : Cpu) : SwitchRun L M c []
  | save {g : CodeGenerator} {name : String} {base : Reg} {c d : Cpu} {history : List (Word × (Reg → Word))}
      (run : SwitchRun L M c history) (named : resolve name = .ok base) (room : Roomy c base history)
      (executes : Executes L M g (.kernelCtxSave name) c d) : SwitchRun L M d (history ++ [(c.reg base, c.reg)])
  | switch {g : CodeGenerator} {save load : String} {base base' : Reg} {c d : Cpu} {history : List (Word × (Reg → Word))}
      (run : SwitchRun L M c history) (named : resolve save = .ok base) (named' : resolve load = .ok base')
      (room : Roomy c base history) (executes : Executes L M g (.kernelCoopSwitch save load) c d) :
      SwitchRun L M d (history ++ [(c.reg base, c.reg)])
  | other {c d : Cpu} {history : List (Word × (Reg → Word))} (run : SwitchRun L M c history)
      (kept : ∀ e ∈ history, SameOn e.1 128 c.mem d.mem) : SwitchRun L M d history

variable {c : Cpu} {history : List (Word × (Reg → Word))}

/-- The registers stay, but for those of the generator, and the block that is saved to holds the task as well. -/
structure SavedTask (base : Reg) (history : List (Word × (Reg → Word))) (c d : Cpu) : Prop where
  regs : ∀ r, r ≠ .r11 → r ≠ SCRATCH → d.reg r = c.reg r
  blocks : Blocks d.mem (history ++ [(c.reg base, c.reg)])

theorem save_meets (loaded : L.Loaded M) {base : Reg} (user : User base) (blocks : Blocks c.mem history)
    (room : Roomy c base history) : L.Meets (ctxSaveCalls base) c (SavedTask base history c) := by
  refine .mono (meets_both loaded (ctxSave_meets user room.own) (ctxSave_only user c)) fun d done => ?_
  obtain ⟨⟨regs, words⟩, only⟩ := done
  refine ⟨regs, fun p ρ left => ?_⟩
  rw [latest_concat] at left
  by_cases here : c.reg base = p
  · rw [if_pos here] at left
    cases left
    have same : IRQ_GPRS.map (c.set SCRATCH (c.reg base)).reg = IRQ_GPRS.map c.reg :=
      List.map_congr_left fun r member => by
        simp [show r ≠ SCRATCH from fun scratch => absurd (scratch ▸ member) (by decide)]
    have shape : BLOCK.map (c.set SCRATCH (c.reg base)).reg =
        IRQ_GPRS.map (c.set SCRATCH (c.reg base)).reg ++ [c.reg base] ++ [c.reg .rbp] := rfl
    rw [shape, same, here] at words
    exact words
  · rw [if_neg here] at left
    obtain ⟨e, member, place⟩ := mem_of_latest left
    -- Another task's block is neither the one that is written nor where the stack is.
    have far := room.others e member fun same => here (same.symm.trans place)
    have word := room.word e member
    rw [place] at far word
    refine (blocks p ρ left).sameOn fun x inside => only x ?_ ?_
    · obtain ⟨apart, fits⟩ := word
      bv_omega
    · obtain ⟨apart, fits⟩ := far
      bv_omega

/-- The registers of the task that is switched to, and a memory in which every block holds its task. -/
structure Switched (history : List (Word × (Reg → Word))) (base base' : Reg) (c d : Cpu) : Prop where
  blocks : Blocks d.mem (history ++ [(c.reg base, c.reg)])
  sp : d.reg .rsp = c.reg .rsp
  regs : ∀ ρ, latest (history ++ [(c.reg base, c.reg)]) (c.reg base') = some ρ → ∀ r ∈ TASK, d.reg r = ρ r

theorem switch_meets (loaded : L.Loaded M) {base base' : Reg} (user : User base) (user' : User base')
    (blocks : Blocks c.mem history) (room : Roomy c base history) :
    L.Meets (ctxSaveCalls base ++ ctxLoadCalls base') c (Switched history base base' c) := by
  refine .append (save_meets loaded user blocks room) fun m saved => ?_
  obtain ⟨notSp, -, notR11, notScratch⟩ := (user_iff base').mp user'
  have pointer : m.reg base' = c.reg base' := saved.regs base' notR11 notScratch
  have sp : m.reg .rsp = c.reg .rsp := saved.regs .rsp (by decide) (by decide)
  cases left : latest (history ++ [(c.reg base, c.reg)]) (c.reg base') with
  | none =>
    refine .mono (ctxLoad_only m) fun d only => ⟨only.1 ▸ saved.blocks, only.2.trans sp, fun ρ found => ?_⟩
    rw [left] at found
    cases found
  | some ρ =>
    have holds := saved.blocks _ ρ left
    rw [← pointer] at holds
    refine .mono (meets_both loaded (ctxLoad_only m) (ctxLoad_meets holds)) fun d done => ?_
    obtain ⟨only, values⟩ := done
    refine ⟨only.1 ▸ saved.blocks, only.2.trans sp, fun ρ' found => ?_⟩
    rw [left] at found
    cases found
    exact values

theorem SwitchRun.blocks (loaded : L.Loaded M) (run : SwitchRun L M c history) : Blocks c.mem history := by
  induction run with
  | start => exact fun p ρ left => by cases left
  | save _ named room executes ih =>
    exact (executes.post loaded (ctxSave_appends named) (save_meets loaded (user_of_resolve named) ih room)).blocks
  | switch _ named named' room executes ih =>
    exact (executes.post loaded (coopSwitch_appends named named')
      (switch_meets loaded (user_of_resolve named) (user_of_resolve named') ih room)).blocks
  | other _ kept ih =>
    intro p ρ left
    obtain ⟨e, member, place⟩ := mem_of_latest left
    exact (ih p ρ left).sameOn (place ▸ kept e member)

/-- However tasks have been switched between, a switch to a task brings back the registers with which it was left the last
time, and the stack pointer stays that of the task that is left. -/
theorem coop_switch_resumes (loaded : L.Loaded M) (run : SwitchRun L M c history) {g : CodeGenerator} {save load : String}
    {base base' : Reg} (named : resolve save = .ok base) (named' : resolve load = .ok base') (room : Roomy c base history)
    {ρ : Reg → Word} (left : latest (history ++ [(c.reg base, c.reg)]) (c.reg base') = some ρ) {i : Nat} {calls : List Call}
    (stands : Stands L g (.kernelCoopSwitch save load) i calls) :
    ∃ d, M.Completes (L.offset i) (L.offset (i + calls.length)) c d ∧ SwitchRun L M d (history ++ [(c.reg base, c.reg)]) ∧
      d.reg .rsp = c.reg .rsp ∧
        ∀ r ∈ [Reg.rax, .rbx, .rcx, .rdx, .rsi, .rdi, .r8, .r9, .r10, .r11, .r12, .r13, .r14, .rbp], d.reg r = ρ r := by
  obtain ⟨d, completes, switched⟩ := stands.executes loaded (coopSwitch_appends named named')
    (switch_meets loaded (user_of_resolve named) (user_of_resolve named') (run.blocks loaded) room)
  exact ⟨d, completes, .switch run named named' room ⟨_, _, stands, completes⟩, switched.sp, switched.regs ρ left⟩

/-- A task with its block at 1000 comes back to its sevens from one with nines and its block at 2000. -/
theorem coop_switch_resumes_sevens : ∃ (L : Listing) (M : Machine) (c d : Cpu) (i j : Nat),
    M.Completes (L.offset i) (L.offset j) c d ∧ c.reg .rcx = 9 ∧ d.reg .rcx = 7 := by
  obtain ⟨L, M, loaded, calls, -, -⟩ := Listing.exists_loaded (ctxSaveCalls .rax ++ (ctxSaveCalls .rbx ++ ctxLoadCalls .rax)) []
    .silent (by decide)
  have here : L.At 0 (ctxSaveCalls .rax ++ (ctxSaveCalls .rbx ++ ctxLoadCalls .rax)) := calls ▸ List.prefix_refl _
  obtain ⟨first, second⟩ := here.append _
  have save : Stands L (.new false) (.kernelCtxSave "reg1") 0 (ctxSaveCalls .rax) := ⟨⟨_, rfl, rfl⟩, first⟩
  have switch : Stands L (.new false) (.kernelCoopSwitch "reg2" "reg1") _ (ctxSaveCalls .rbx ++ ctxLoadCalls .rax) :=
    ⟨⟨_, rfl, rfl⟩, second⟩
  obtain ⟨c, start⟩ : ∃ c, (Cpu.filled 7).set .rax 1000 = c := ⟨_, rfl⟩
  have sp : c.reg .rsp = 7 := start ▸ rfl
  have block : c.reg .rax = 1000 := start ▸ rfl
  have room : Roomy c .rax [] := by
    refine ⟨?_, List.forall_mem_nil _, List.forall_mem_nil _⟩
    rw [sp, block]
    constructor <;> decide
  have named : resolve "reg1" = .ok .rax := by decide
  have named' : resolve "reg2" = .ok .rbx := by decide
  obtain ⟨m, completes, saved⟩ := save.executes loaded (ctxSave_appends named)
    (save_meets loaded (user_of_resolve named) (SwitchRun.blocks loaded (.start c)) room)
  have run : SwitchRun L M ((m.set .rbx 2000).set .rcx 9) [(1000, c.reg)] := by
    refine .other (c := m) ?_ fun _ _ => .refl _ _ _
    have run := SwitchRun.save (.start c) named room ⟨_, _, save, completes⟩
    rwa [block] at run
  have sp' : ((m.set .rbx 2000).set .rcx 9).reg .rsp = 7 := (saved.regs .rsp (by decide) (by decide)).trans sp
  have block' : ((m.set .rbx 2000).set .rcx 9).reg .rax = 1000 := (saved.regs .rax (by decide) (by decide)).trans block
  have room' : Roomy ((m.set .rbx 2000).set .rcx 9) .rbx [(1000, c.reg)] := by
    have pointer : ((m.set .rbx 2000).set .rcx 9).reg .rbx = 2000 := rfl
    refine ⟨?_, fun e member _ => ?_, fun e member => ?_⟩
    · rw [sp', pointer]
      constructor <;> decide
    · obtain rfl := List.mem_singleton.mp member
      change Separate _ 128 1000 128
      rw [pointer]
      constructor <;> decide
    · obtain rfl := List.mem_singleton.mp member
      change Separate _ 8 1000 128
      rw [sp']
      constructor <;> decide
  have left : latest ([(1000, c.reg)] ++ [(((m.set .rbx 2000).set .rcx 9).reg .rbx, ((m.set .rbx 2000).set .rcx 9).reg)])
      (((m.set .rbx 2000).set .rcx 9).reg .rax) = some c.reg := by
    rw [block']
    rfl
  obtain ⟨d, completes', -, -, regs⟩ := coop_switch_resumes loaded run named' named room' left switch
  refine ⟨L, M, _, d, _, _, completes', rfl, ?_⟩
  rw [regs .rcx (by decide), ← start]
  rfl

end Aclm.Codegen
