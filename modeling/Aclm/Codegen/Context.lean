import Aclm.Codegen.Run

/-! Saving the registers into a context block and loading them from one. -/

set_option autoImplicit false

namespace Aclm.Codegen

open X64 (Word Reg Cpu Env Machine)
open X64.Memory (Separate SameOn OnlyIn StackAt storeWords range range_subset_iff)
open Encoder

theorem ctxSave_appends {g : CodeGenerator} {name : String} {base : Reg} (named : resolve name = .ok base) :
    Appends (.kernelCtxSave name) g (ctxSaveCalls base) := by
  intro g' emission
  simp only [emitOp, kernelCtxSave, reg_bind_ok, named, Except.ok.injEq, exists_eq_left', asm_ok] at emission
  rw [emission, CodeGenerator.withScript_script]

theorem ctxLoad_appends {g : CodeGenerator} {name : String} {base : Reg} (named : resolve name = .ok base) :
    Appends (.kernelCtxLoad name) g (ctxLoadCalls base) := by
  intro g' emission
  simp only [emitOp, kernelCtxLoad, reg_bind_ok, named, Except.ok.injEq, exists_eq_left', asm_ok] at emission
  rw [emission, CodeGenerator.withScript_script]

section Words

variable {env : Env} {place : String → Word}

theorem contextStores_effects (regs : List Reg) (i : Nat) (c : Cpu) :
    effects env place (contextStores regs i) c =
      some (c.setMem (storeWords c.mem (c.reg SCRATCH + BitVec.ofNat 64 (8 * i)) (regs.map c.reg))) := by
  induction regs generalizing i c with
  | nil => rfl
  | cons r rest ih =>
    have next : c.reg SCRATCH + BitVec.ofNat 64 (8 * i) + 8 = c.reg SCRATCH + BitVec.ofNat 64 (8 * (i + 1)) := by
      bv_omega
    have offset : BitVec.ofInt 64 ((i : Int) * 8) = BitVec.ofNat 64 (8 * i) := by
      rw [← BitVec.ofInt_natCast]
      congr 1
      omega
    simp only [contextStores, store64, effects_cons, effect_movMemReg, Option.bind_some, ih, offset, List.map_cons,
      storeWords, next]
    rfl

/-- The words at the cursor go into the registers, which are not the cursor. -/
theorem contextLoads_effects {regs : List Reg} {ws : List Word} {i : Nat} {c : Cpu} (length : regs.length = ws.length)
    (distinct : regs.Nodup) (cursor : SCRATCH ∉ regs)
    (words : StackAt c.mem (c.reg SCRATCH + BitVec.ofNat 64 (8 * i)) ws) :
    ∃ d, effects env place (contextLoads regs i) c = some d ∧ (∀ p ∈ regs.zip ws, d.reg p.1 = p.2) ∧
      (∀ r, r ∉ regs → d.reg r = c.reg r) ∧ d.mem = c.mem ∧ d.trace = c.trace ∧
      reads env place (contextLoads regs i) c =
        (List.range' i regs.length).map fun k => (c.reg SCRATCH + BitVec.ofNat 64 (8 * k), 8) := by
  induction regs generalizing ws i c with
  | nil => exact ⟨c, rfl, by simp, fun _ _ => rfl, rfl, rfl, rfl⟩
  | cons r rest ih =>
    cases ws with
    | nil => cases length
    | cons w ws =>
      obtain ⟨here, further⟩ := words
      obtain ⟨fresh, distinct⟩ := List.nodup_cons.mp distinct
      obtain ⟨notCursor, cursor⟩ := not_or.mp (mt List.mem_cons.mpr cursor)
      have next : c.reg SCRATCH + BitVec.ofNat 64 (8 * i) + 8 = c.reg SCRATCH + BitVec.ofNat 64 (8 * (i + 1)) := by
        bv_omega
      have offset : BitVec.ofInt 64 ((i : Int) * 8) = BitVec.ofNat 64 (8 * i) := by
        rw [← BitVec.ofInt_natCast]
        congr 1
        omega
      rw [next] at further
      obtain ⟨d, ran, values, others, mem, trace, read⟩ := ih (c := c.set r w) (Nat.succ.inj length) distinct cursor
        (by simpa [notCursor] using further)
      refine ⟨d, ?_, fun p member => ?_, fun s other => ?_, by simpa using mem, by simpa using trace, ?_⟩
      · simp only [contextLoads, load64, effects_cons, effect_movRegMem, Option.bind_some, offset, here, ran]
      · rcases List.mem_cons.mp member with rfl | member
        · simpa using others r fresh
        · exact values p member
      · obtain ⟨notHead, other⟩ := not_or.mp (mt List.mem_cons.mpr other)
        simpa [notHead] using others s other
      · simp only [contextLoads, load64, reads, reads_movRegMem, effect_movRegMem, offset, here, Option.elim_some, read]
        simp [List.range'_succ, notCursor]

end Words

/-! ### Saving -/

/-- The registers of a block, in order: all but RSP, which a load leaves alone. -/
def BLOCK : List Reg := CONTEXT ++ [.rbp]

variable {L : Listing} {M : Machine}

theorem ctxSave_meets {base : Reg} (user : User base) {c : Cpu} (clear : Separate (c.reg .rsp - 8) 8 (c.reg base) 128) :
    L.Meets (ctxSaveCalls base) c fun d => (∀ r, r ≠ .r11 → r ≠ SCRATCH → d.reg r = c.reg r) ∧
      StackAt d.mem (c.reg base) (BLOCK.map (c.set SCRATCH (c.reg base)).reg) := by
  obtain ⟨notSp, -, notR11, notScratch⟩ := (user_iff base).mp user
  obtain ⟨p, base_eq⟩ : ∃ p, c.reg base = p := ⟨_, rfl⟩
  rw [base_eq] at clear ⊢
  obtain ⟨m, entered⟩ : ∃ m, (c.push p).set SCRATCH p = m := ⟨_, rfl⟩
  have sp : m.reg .rsp = c.reg .rsp - 8 := by simp [← entered, SCRATCH]
  have others (r : Reg) (notSp : r ≠ .rsp) : m.reg r = (c.set SCRATCH p).reg r := by simp [← entered, notSp]
  have words : BLOCK.map m.reg = BLOCK.map (c.set SCRATCH p).reg :=
    List.map_congr_left fun r member => others r fun same => absurd (same ▸ member) (by decide)
  have cursor : m.reg SCRATCH = p := by simp [← entered]
  -- The base is still on the stack, which no store into the block reaches.
  obtain ⟨filled, stored⟩ : ∃ filled, storeWords m.mem p (BLOCK.map m.reg) = filled := ⟨_, rfl⟩
  have within : OnlyIn p 120 m.mem filled := 
    stored ▸ X64.Memory.storeWords_onlyIn m.mem p (BLOCK.map m.reg) (show 8 * 15 ≤ 2 ^ 64 by decide)
  have clear := clear.symm (by decide)
  have last : SameOn p 120 filled (filled.store (p + 120#64) 8 (m.reg .rsp)) :=
    X64.Memory.store_sameOn (by constructor <;> bv_omega) _
  have top : (filled.store (p + 120#64) 8 (m.reg .rsp)).load (m.reg .rsp) 8 = p := by
    have far : Separate (p + 120#64) 8 (m.reg .rsp) 8 := by
      obtain ⟨lower, upper⟩ := clear
      rw [sp]
      constructor <;> bv_omega
    have front : Separate p 120 (m.reg .rsp) 8 := by
      obtain ⟨lower, upper⟩ := clear
      rw [sp]
      constructor <;> bv_omega
    have kept := (within.sameOn front).load (i := 0) (k := 8) (by omega) (by omega)
    rw [X64.Memory.load_store_apart far]
    simp only [BitVec.add_zero] at kept
    rw [kept, sp]
    simp [← entered]
  have enter : effects L.env L.address [.pushReg base, .movRegReg SCRATCH base] c = some m := by
    simp [base_eq, notSp, ← entered]
  have fill : effects L.env L.address (contextStores BLOCK 0) m = some (m.setMem filled) := by
    rw [contextStores_effects, cursor, ← stored]
    simp
  have leave : effects L.env L.address [load64 .r11 .rsp 0, store64 SCRATCH 120 .rsp, .popReg base] (m.setMem filled) =
      some (((((m.setMem filled).set .r11 (filled.load (m.reg .rsp) 8)).setMem
        (filled.store (p + 120#64) 8 (m.reg .rsp))).set .rsp (m.reg .rsp + 8#64)).set base p) := by
    have r11 : SCRATCH ≠ .r11 := by decide
    simp [load64, store64, cursor, r11, top]
  refine .straight (d := _) (by
    change effects _ _ ([.pushReg base, .movRegReg SCRATCH base] ++ contextStores BLOCK 0 ++
      [load64 .r11 .rsp 0, store64 SCRATCH 120 .rsp, .popReg base]) c = _
    rw [effects_append, effects_append, enter, Option.bind_some, fill, Option.bind_some, leave]) ⟨fun r notR11 notScratch => ?_, ?_⟩
  · by_cases isBase : r = base
    · subst isBase
      simp [base_eq]
    · by_cases isSp : r = .rsp
      · simp [isSp, Ne.symm notSp, sp]
      · have same := others r isSp
        simpa [isBase, isSp, notR11, notScratch] using same
  · have stack := X64.Memory.storeWords_stackAt m.mem p (BLOCK.map m.reg) (show 8 * 15 ≤ 2 ^ 64 by decide)
    rw [stored] at stack
    have start : StackAt filled (p + BitVec.ofNat 64 0) (BLOCK.map m.reg) := by simpa using stack
    have kept := last.stackAt start (show 0 + 8 * 15 ≤ 120 by decide) (by decide)
    simpa [words] using kept

/-! ### Loading -/

/-- The words of a block that are not read through R15, and the one that goes into R15. -/
def Block (c : Cpu) (p : Word) (ws : List Word) (cursor : Word) : Prop :=
  ws.length = 13 ∧ StackAt c.mem p (ws ++ [cursor])

/-- The words of the block go into their registers, but RBP is loaded through the R15 of the block. -/
theorem ctxLoad_effects {base : Reg} {ws : List Word} {cursor : Word} {c : Cpu} (block : Block c (c.reg base) ws cursor) :
    ∃ d, effects L.env L.address (ctxLoadCalls base) c = some d ∧ (∀ p ∈ CONTEXT.zip (ws ++ [cursor]), d.reg p.1 = p.2) ∧
      d.reg .rbp = c.mem.load (cursor + 112) 8 ∧
      reads L.env L.address (ctxLoadCalls base) c =
        ((List.range 14).map fun k => (c.reg base + BitVec.ofNat 64 (8 * k), 8)) ++ [(cursor + 112, 8)] := by
  obtain ⟨length, words⟩ := block
  obtain ⟨front, last, -⟩ := words.append
  rw [length] at last
  have start : StackAt (c.set SCRATCH (c.reg base)).mem ((c.set SCRATCH (c.reg base)).reg SCRATCH + BitVec.ofNat 64 (8 * 0))
      ws := by simpa using front
  obtain ⟨m, ran, values, others, mem, -, read⟩ := @contextLoads_effects L.env L.address IRQ_GPRS ws 0 _
    (by rw [length]; rfl) (by decide) (by decide) start
  have cursor_eq : m.reg SCRATCH = c.reg base := by simpa using others SCRATCH (by decide)
  have enter : effects L.env L.address [.movRegReg SCRATCH base] c = some (c.set SCRATCH (c.reg base)) := by simp
  have split : ctxLoadCalls base = ([.movRegReg SCRATCH base] ++ contextLoads IRQ_GPRS 0) ++
      [load64 SCRATCH SCRATCH 104, load64 .rbp SCRATCH 112] := rfl
  have loaded : effects L.env L.address ([.movRegReg SCRATCH base] ++ contextLoads IRQ_GPRS 0) c = some m := by
    rw [effects_append, enter, Option.bind_some, ran]
  have ending : effects L.env L.address [load64 SCRATCH SCRATCH 104, load64 .rbp SCRATCH 112] m =
      some ((m.set SCRATCH cursor).set .rbp (c.mem.load (cursor + 112#64) 8)) := by
    simp [load64, cursor_eq, mem, last]
  refine ⟨_, by rw [split, effects_append, loaded, Option.bind_some, ending], fun p member => ?_, by simp, ?_⟩
  · have shape : CONTEXT = IRQ_GPRS ++ [SCRATCH] := rfl
    rw [shape, List.zip_append (by rw [length]; rfl), List.mem_append] at member
    simp only [List.zip_cons_cons, List.zip_nil_left, List.mem_singleton] at member
    rcases member with member | rfl
    · have register : p.1 ∈ IRQ_GPRS := (List.of_mem_zip member).1
      have apart : ∀ r ∈ IRQ_GPRS, r ≠ SCRATCH ∧ r ≠ .rbp := by decide
      obtain ⟨notCursor, notRbp⟩ := apart p.1 register
      simpa [notCursor, notRbp] using values p member
    · rfl
  · have tail : reads L.env L.address [load64 SCRATCH SCRATCH 104, load64 .rbp SCRATCH 112] m =
        [(c.reg base + 104#64, 8), (cursor + 112#64, 8)] := by
      simp [reads, load64, reads_movRegMem, cursor_eq, last, mem]
    rw [split, reads_append loaded, reads_append enter, read, tail]
    simp [reads, Call.reads, List.range'_eq_map_range, IRQ_GPRS]
    rfl

/-- The registers have the words of the block at `p`, and nothing but the block was read. -/
structure ContextLoaded (p : Word) (c d : Cpu) (read : List (Word × Nat)) : Prop where
  regs : ∀ k r, BLOCK[k]? = some r → d.reg r = c.mem.load (p + BitVec.ofNat 64 (8 * k)) 8
  reads : ∀ x ∈ read, range x.1 x.2 ⊆ range p 128

/-- With the word for R15 as its address, the block's last word lies in the block and is the block's own. -/
def RbpIntact (p : Word) (c : Cpu) : Prop :=
  (c.mem.load (p + 104) 8 + 112 - p).toNat + 8 ≤ 128 ∧
    c.mem.load (c.mem.load (p + 104) 8 + 112) 8 = c.mem.load (p + 112) 8

theorem contextLoaded_iff {base : Reg} (c : Cpu) : ∃ d, effects L.env L.address (ctxLoadCalls base) c = some d ∧
    (ContextLoaded (c.reg base) c d (reads L.env L.address (ctxLoadCalls base) c) ↔ RbpIntact (c.reg base) c) := by
  obtain ⟨p, base_eq⟩ : ∃ p, c.reg base = p := ⟨_, rfl⟩
  have words := X64.Memory.stackAt_read c.mem p 14
  have block : Block c (c.reg base) ((List.range 13).map fun k => c.mem.load (p + BitVec.ofNat 64 (8 * k)) 8)
      (c.mem.load (p + 104) 8) := by
    refine ⟨by simp, ?_⟩
    rw [List.range_succ, List.map_append] at words
    simpa [base_eq] using words
  obtain ⟨d, ran, values, rbp, read⟩ := @ctxLoad_effects L _ _ _ _ block
  have regs (k : Nat) (r : Reg) (found : CONTEXT[k]? = some r) :
      d.reg r = c.mem.load (p + BitVec.ofNat 64 (8 * k)) 8 := by
    have small : k < 14 := (List.getElem?_eq_some_iff.mp found).1
    -- The thirteen registers and R15 behind them are the first fourteen words of the block.
    have shape : ((List.range 13).map fun k => c.mem.load (p + BitVec.ofNat 64 (8 * k)) 8) ++
        [c.mem.load (p + 104) 8] = (List.range 14).map fun k => c.mem.load (p + BitVec.ofNat 64 (8 * k)) 8 := by
      rw [List.range_succ, List.map_append]
      rfl
    rw [shape] at values
    have pair : (r, c.mem.load (p + BitVec.ofNat 64 (8 * k)) 8) ∈
        CONTEXT.zip ((List.range 14).map fun k => c.mem.load (p + BitVec.ofNat 64 (8 * k)) 8) := by
      refine List.mem_of_getElem? (i := k) (List.getElem?_zip_eq_some.mpr ⟨found, ?_⟩)
      rw [List.getElem?_map, List.getElem?_range small, Option.map_some]
    exact values _ pair
  rw [base_eq] at read ⊢
  refine ⟨d, ran, fun right => ⟨?_, ?_⟩, fun intact => ⟨fun k r found => ?_, fun x member => ?_⟩⟩
  -- RBP is read through R15, which the block has loaded by then.
  · have inside := right.reads _ (read ▸ List.mem_append_right _ List.mem_cons_self)
    exact (range_subset_iff (by decide) (by decide)).mp inside
  · have last := right.regs 14 .rbp rfl
    exact rbp.symm.trans last
  · rcases Nat.lt_or_ge k 14 with small | large
    · rw [BLOCK, List.getElem?_append_left (show k < CONTEXT.length from small)] at found
      exact regs k r found
    · have bound : k < BLOCK.length := (List.getElem?_eq_some_iff.mp found).1
      obtain rfl : k = 14 := Nat.le_antisymm (Nat.le_of_lt_succ bound) large
      cases found
      exact rbp.trans intact.2
  · rw [read] at member
    rcases List.mem_append.mp member with member | member
    · obtain ⟨k, small, rfl⟩ := List.mem_map.mp member
      have small := List.mem_range.mp small
      exact (range_subset_iff (show 0 < 8 by decide) (by decide)).mpr (by bv_omega)
    · obtain rfl := List.mem_singleton.mp member
      exact (range_subset_iff (show 0 < 8 by decide) (by decide)).mpr intact.1

/-- Loading a context does what it should exactly when the block's R15 leads to the block's own RBP. -/
theorem ctxLoad_iff (loaded : L.Loaded M) {g : CodeGenerator} {name : String} {base : Reg}
    (named : resolve name = .ok base) {i : Nat} {calls : List Call} (stands : Stands L g (.kernelCtxLoad name) i calls)
    (c : Cpu) : ∃ d, M.Completes (L.offset i) (L.offset (i + calls.length)) c d ∧
      (ContextLoaded (c.reg base) c d (reads L.env L.address calls c) ↔ RbpIntact (c.reg base) c) := by
  obtain rfl := stands.calls_eq (ctxLoad_appends named)
  obtain ⟨d, ran, right⟩ := @contextLoaded_iff L base c
  obtain ⟨e, run, rfl⟩ := stands.executes loaded (ctxLoad_appends named) (.straight ran rfl : L.Meets _ c (· = d))
  exact ⟨e, run, right⟩

/-- A block of zeros at address zero leads to itself. -/
theorem ctxLoad_zeros : ∃ (L : Listing) (M : Machine) (d : Cpu) (read : List (Word × Nat)),
    M.Steps ⟨L.offset 0, Cpu.filled 0⟩ ⟨L.offset (ctxLoadCalls .rax).length, d⟩ ∧
      ContextLoaded 0 (Cpu.filled 0) d read := by
  obtain ⟨L, M, loaded, calls, -, -⟩ := Listing.exists_loaded (ctxLoadCalls .rax) [] .silent (by decide)
  have stands : Stands L (.new false) (.kernelCtxLoad "reg1") 0 (ctxLoadCalls .rax) :=
    ⟨⟨_, rfl, rfl⟩, calls ▸ List.prefix_refl _⟩
  have named : resolve "reg1" = .ok .rax := by decide
  obtain ⟨d, run, right⟩ := ctxLoad_iff loaded named stands (Cpu.filled 0)
  rw [Nat.zero_add] at run
  exact ⟨L, M, d, _, run.steps, right.mpr (by unfold RbpIntact; decide)⟩

/-- Zeros at address 1000, and a one at address 112. -/
theorem ctxLoad_elsewhere : ¬∀ (L : Listing) (base : Reg) (c d : Cpu), User base →
    effects L.env L.address (ctxLoadCalls base) c = some d →
      ContextLoaded (c.reg base) c d (reads L.env L.address (ctxLoadCalls base) c) := by
  intro right
  let c : Cpu := (Cpu.filled 1000).setMem fun x => if x = 112 then 1 else 0
  obtain ⟨d, ran, correct⟩ := @contextLoaded_iff ⟨[], false, [], 0, .silent⟩ .rax c
  have intact := correct.mp (right _ .rax c d (by decide) ran)
  exact absurd intact (by unfold RbpIntact; decide)

/-- A block that another register points to is loaded as it was saved, whatever the other registers hold then. -/
theorem ctx_roundTrip (loaded : L.Loaded M) {g : CodeGenerator} {name : String} {base : Reg}
    (named : resolve name = .ok base) {i : Nat} {calls : List Call} (stands : Stands L g (.kernelCtxSave name) i calls)
    {c : Cpu} (clear : Separate (c.reg .rsp - 8) 8 (c.reg base) 128) :
    ∃ d, M.Completes (L.offset i) (L.offset (i + calls.length)) c d ∧
      (∀ r, r ≠ .r11 → r ≠ .r15 → d.reg r = c.reg r) ∧
      ∀ (g' : CodeGenerator) (name' : String) (base' : Reg) (j : Nat) (calls' : List Call),
        resolve name' = .ok base' → Stands L g' (.kernelCtxLoad name') j calls' →
        ∀ e : Cpu, e.reg base' = c.reg base → SameOn (c.reg base) 128 d.mem e.mem →
          ∃ f, M.Completes (L.offset j) (L.offset (j + calls'.length)) e f ∧
            ∀ r ∈ [Reg.rax, .rbx, .rcx, .rdx, .rsi, .rdi, .r8, .r9, .r10, .r11, .r12, .r13, .r14, .rbp],
              f.reg r = c.reg r := by
  obtain ⟨p, base_eq⟩ : ∃ p, c.reg base = p := ⟨_, rfl⟩
  have appends := @ctxSave_appends g name base named
  obtain ⟨d, saved, regs, words⟩ := stands.executes loaded appends (ctxSave_meets (user_of_resolve named) clear)
  refine ⟨d, saved, regs, fun g' name' base' j calls' named' stands' e pointer same => ?_⟩
  rw [base_eq] at words pointer same
  have start : StackAt d.mem (p + BitVec.ofNat 64 0) (BLOCK.map (c.set SCRATCH p).reg) := by simpa using words
  -- The fifteen words of the block have stayed as they were written.
  have kept := same.stackAt start (show 0 + 8 * 15 ≤ 128 by decide) (by decide)
  have shape : BLOCK.map (c.set SCRATCH p).reg = (IRQ_GPRS.map (c.set SCRATCH p).reg ++ [p]) ++ [c.reg .rbp] := rfl
  rw [shape, BitVec.add_zero] at kept
  obtain ⟨front, last, -⟩ := kept.append
  have length : (IRQ_GPRS.map (c.set SCRATCH p).reg).length = 13 := by rw [List.length_map]; rfl
  rw [List.length_append, length] at last
  have block : Block e (e.reg base') (IRQ_GPRS.map (c.set SCRATCH p).reg) p := by
    rw [pointer]
    exact ⟨length, front⟩
  obtain ⟨f, ran, values, rbp, -⟩ := @ctxLoad_effects L _ _ _ _ block
  obtain ⟨f', run, rfl⟩ := stands'.executes loaded (ctxLoad_appends named') (.straight ran rfl : L.Meets _ e (· = f))
  refine ⟨f', run, fun r member => ?_⟩
  -- RBP has a word of its own behind the others.
  by_cases isRbp : r = .rbp
  · subst isRbp
    rw [rbp]
    exact last
  · have general : ∀ r ∈ [Reg.rax, .rbx, .rcx, .rdx, .rsi, .rdi, .r8, .r9, .r10, .r11, .r12, .r13, .r14, .rbp],
        r ≠ .rbp → r ∈ IRQ_GPRS ∧ r ≠ SCRATCH := by decide
    obtain ⟨inside, notScratch⟩ := general r member isRbp
    have pair : (r, (c.set SCRATCH p).reg r) ∈ CONTEXT.zip (IRQ_GPRS.map (c.set SCRATCH p).reg ++ [p]) := by
      have shape : CONTEXT = IRQ_GPRS ++ [SCRATCH] := rfl
      rw [shape, List.zip_append (by simp)]
      exact List.mem_append_left _ (mem_zip_map _ inside)
    simpa [notScratch] using values _ pair

/-- Saved through `reg1`, and loaded through `reg2` with nines in the other registers. -/
theorem ctx_roundTrip_other : ∃ (L : Listing) (M : Machine) (d f : Cpu),
    M.Steps ⟨L.offset 0, Cpu.filled 7⟩ ⟨L.offset (ctxSaveCalls .rax).length, d⟩ ∧
      M.Steps ⟨L.offset (ctxSaveCalls .rax).length, ((Cpu.filled 9).set .rbx 7).setMem d.mem⟩
        ⟨L.offset ((ctxSaveCalls .rax).length + (ctxLoadCalls .rbx).length), f⟩ ∧ f.reg .rcx = 7 ∧ f.reg .rbx = 7 := by
  obtain ⟨L, M, loaded, calls, -, -⟩ := Listing.exists_loaded (ctxSaveCalls .rax ++ ctxLoadCalls .rbx) [] .silent
    (by decide)
  have here : L.At 0 (ctxSaveCalls .rax ++ ctxLoadCalls .rbx) := calls ▸ List.prefix_refl _
  obtain ⟨first, second⟩ := here.append _
  have save : Stands L (.new false) (.kernelCtxSave "reg1") 0 (ctxSaveCalls .rax) := ⟨⟨_, rfl, rfl⟩, first⟩
  have load : Stands L (.new false) (.kernelCtxLoad "reg2") _ (ctxLoadCalls .rbx) := ⟨⟨_, rfl, rfl⟩, second⟩
  have clear : Separate ((Cpu.filled 7).reg .rsp - 8) 8 ((Cpu.filled 7).reg .rax) 128 := by
    change Separate (7 - 8) 8 7 128
    constructor <;> decide
  have named : resolve "reg1" = .ok .rax := by decide
  obtain ⟨d, saved, -, later⟩ := ctx_roundTrip loaded named save clear
  obtain ⟨f, run, restored⟩ := later _ "reg2" .rbx _ _ (by decide) load (((Cpu.filled 9).set .rbx 7).setMem d.mem) rfl
    (.refl _ _ _)
  rw [Nat.zero_add] at saved run
  exact ⟨L, M, d, f, saved.steps, run.steps, restored .rcx (by decide), restored .rbx (by decide)⟩

end Aclm.Codegen
