import Aclm.Codegen.Labels
import Aclm.Codegen.Run

/-! Function frames: whatever the body does to the stack pointer, every way out of a function leads back to the caller
with the caller's registers. -/

set_option autoImplicit false

namespace Aclm.Codegen

open X64 (Word Reg Cpu Machine)
open X64.Memory (SameOn StackAt)
open Encoder

variable {L : Listing} {M : Machine}

/-! ### The code -/

/-- The generator states in which a return is emitted: at the end of a body and at its `ret` and `ret value`
statements, after the value. -/
inductive Returns (g : CodeGenerator) (body : List Stmt) : CodeGenerator → Prop where
  | fallThrough {h : CodeGenerator} (emission : emitAll body g = .ok () h) : Returns g body h
  | ret {before after : List Stmt} {line : Int} {h : CodeGenerator} (shape : body = before ++ .op line .ret :: after)
      (emission : (do emitAll before; note line : Gen Unit) g = .ok () h) : Returns g body h
  | retVal {before after : List Stmt} {line : Int} {value : Option Expr} {h : CodeGenerator}
      (shape : body = before ++ .op line (.retVal value) :: after)
      (emission : (do emitAll before; note line; evalOr value .rax [] : Gen Unit) g = .ok () h) : Returns g body h

/-- The number of calls emitted between two states. -/
def callsBetween (g h : CodeGenerator) : Nat := h.script.length - g.script.length

theorem emitAll_append (before after : List Stmt) :
    emitAll (before ++ after) = (do emitAll before; emitAll after) := by
  induction before with
  | nil => simp [emitAll]
  | cons s rest ih => simp [emitAll, ih]

/-- Wherever a return is emitted, the epilogue is. -/
theorem Returns.epilogue {g g' h : CodeGenerator} {body : List Stmt} (flat : ∀ s ∈ body, isFn s = false)
    (inFn : g.inFn = true) (emission : (do emitAll body; leaveFn : Gen Unit) g = .ok () g') (returns : Returns g body h) :
    ∃ front back, h.script = g.script ++ front ∧ g'.script = g.script ++ front ++ fnEpilogue ++ back := by
  -- What follows the return only appends.
  have rest {m : Gen Unit} (emits : Emits m) {h' : CodeGenerator} (first : m g = .ok () h) {next : Gen Unit}
      (later : Emission next) (last : (do m; emitReturn; next : Gen Unit) g = .ok () h') :
      ∃ front back, h.script = g.script ++ front ∧ h'.script = g.script ++ front ++ fnEpilogue ++ back := by
    obtain ⟨_, h₁, first', last⟩ := bind_ok.mp last
    obtain rfl : h₁ = h := by
      rw [first] at first'
      cases first'
      rfl
    obtain ⟨_, h₂, returned, last⟩ := bind_ok.mp last
    have advance := emits _ _ _ first
    simp only [emitReturn, get_bind_ok, advance.inFn, inFn, if_true, asm_ok] at returned
    obtain ⟨front, script, -⟩ := advance.script
    obtain ⟨back, script', -⟩ := (later _ _ last).script
    exact ⟨front, back, script, by rw [script', returned, CodeGenerator.withScript_script, script]⟩
  have before_emits {before after : List Stmt} {s : Stmt} (shape : body = before ++ s :: after) : Emits (emitAll before) :=
    emitAll_emits fun t member => flat t (shape ▸ List.mem_append_left _ member)
  cases returns with
  | fallThrough whole =>
    obtain ⟨front, script, -⟩ := (emitAll_emits flat _ _ _ whole).script
    obtain ⟨_, m, whole', left⟩ := bind_ok.mp emission
    obtain rfl : m = h := by
      rw [whole] at whole'
      cases whole'
      rfl
    simp only [leaveFn, modify_bind_ok, asm_ok] at left
    exact ⟨front, [], script, by rw [left, CodeGenerator.withScript_script, List.append_nil, script]⟩
  | @ret before after line _ shape first =>
    refine rest (m := do emitAll before; note line) (.seq (before_emits shape) (note_emits line)) first
      (.seq (emitAll_emission after) leaveFn_emission) ?_
    rw [shape, emitAll_append] at emission
    simpa [emitAll, emit, emitOp] using emission
  | @retVal before after line value _ shape first =>
    have valued : Regular (evalOr value .rax []) := .evalOr _ _ trivial
    refine rest (m := do emitAll before; note line; evalOr value .rax [])
      (.seq (before_emits shape) <| .seq (note_emits line) valued.emits) first
      (.seq (emitAll_emission after) leaveFn_emission) ?_
    rw [shape, emitAll_append] at emission
    simpa [emitAll, emit, emitOp] using emission

/-! ### The prologue and the epilogue -/

/-- The words of a frame, from its lowest address: the saved registers and the return address. -/
def frameWords (c : Cpu) : List Word :=
  [c.reg .r14, c.reg .r13, c.reg .r12, c.reg .rbx, c.reg .rbp, c.mem.load (c.reg .rsp) 8]

/-- The code before the body. -/
def prologueCalls (name : String) (total : Int) : List Call :=
  [.label (lbl name), .pushReg .rbp, .movRegReg .rbp .rsp] ++ CALLEE_SAVED.map .pushReg ++ frameCalls total

theorem prologue_meets (name : String) (total : Int) (c : Cpu) :
    L.Meets (prologueCalls name total) c fun p => p.reg .rbp = c.reg .rsp - 8 ∧
      StackAt p.mem (c.reg .rsp - 40) (frameWords c) ∧
        p.reg .rsp = c.reg .rsp - 40 - BitVec.ofInt 64 (roundUp 16 total) := by
  obtain ⟨m, entered⟩ : ∃ m, (c.push (c.reg .rbp)).set .rbp (c.reg .rsp - 8) = m := ⟨_, rfl⟩
  have sp : m.reg .rsp = c.reg .rsp - 8 := by simp [← entered]
  have caller : StackAt m.mem (m.reg .rsp + BitVec.ofNat 64 0) [c.reg .rbp, c.mem.load (c.reg .rsp) 8] := by
    have top : StackAt c.mem (c.reg .rsp) [c.mem.load (c.reg .rsp) 8] := ⟨rfl, trivial⟩
    have pushed := top.push (c.reg .rbp) (show 8 * 2 ≤ 2 ^ 64 by decide)
    simpa [← entered] using pushed
  refine .append (.append (P := (· = m)) (.straight (by simp [← entered]) rfl) fun m' same => ?_ : L.Meets _ c fun p =>
    p.reg .rbp = c.reg .rsp - 8 ∧ StackAt p.mem (c.reg .rsp - 40) (frameWords c) ∧
      p.reg .rsp = c.reg .rsp - 40) fun p framed => ?_
  · rw [same]
    obtain ⟨p, ran, saved⟩ := @save_effects L.env L.address CALLEE_SAVED (by decide) (by decide) m
    have lower : p.reg .rsp = c.reg .rsp - 40 := by
      rw [saved.sp, sp]
      change c.reg .rsp - 8 - 32 = _
      bv_omega
    have above : m.reg .rsp = p.reg .rsp + BitVec.ofNat 64 32 := by
      rw [lower, sp]
      bv_omega
    have apart : X64.Memory.Separate (p.reg .rsp) 32 (m.reg .rsp) 16 := by
      rw [above]
      constructor <;> bv_omega
    refine .straight ran ⟨?_, ?_, ?_⟩
    · rw [saved.regs .rbp (by decide)]
      simp [← entered]
    · have own : StackAt p.mem (p.reg .rsp) [c.reg .r14, c.reg .r13, c.reg .r12, c.reg .rbx] := by
        simpa [CALLEE_SAVED, ← entered] using saved.stack
      have kept := (saved.mem.sameOn apart).stackAt caller (show 0 + 8 * 2 ≤ 16 by decide) (by decide)
      rw [BitVec.add_zero, above] at kept
      rw [← lower]
      exact own.join kept
    · exact lower
  · -- The locals only move the stack pointer.
    rw [frameCalls]
    by_cases none : roundUp 16 total = 0
    · rw [if_pos none]
      exact .straight rfl ⟨framed.1, framed.2.1, by simpa [none] using framed.2.2⟩
    rw [if_neg none]
    refine .straight (by simp; rfl) ⟨?_, ?_, ?_⟩
    · simpa using framed.1
    · exact framed.2.1
    · simp [framed.2.2]

/-- The registers that are taken from a frame. -/
def FRAMED : List Reg := CALLEE_SAVED.reverse ++ [.rbp]

/-- The epilogue up to its last instruction. -/
def restoreCalls : List Call := [.movRegReg .rsp .rbp, subRegImm .rsp 32] ++ FRAMED.map .popReg

/-- The frame is found through RBP alone. -/
theorem restore_meets {c d : Cpu} (framed : StackAt d.mem (c.reg .rsp - 40) (frameWords c))
    (rbp : d.reg .rbp = c.reg .rsp - 8) :
    L.Meets restoreCalls d fun e => e.reg .rsp = c.reg .rsp ∧ (∀ r ∈ FRAMED, e.reg r = c.reg r) ∧
      e.mem.load (c.reg .rsp) 8 = c.mem.load (c.reg .rsp) 8 := by
  refine .append (P := fun m => m.reg .rsp = c.reg .rsp - 40 ∧ m.mem = d.mem) (.straight (by simp; rfl) ⟨?_, ?_⟩)
    fun m lowered => ?_
  · simp [rbp]
    bv_omega
  · rfl
  obtain ⟨sp, mem⟩ := lowered
  have shape : frameWords c = FRAMED.map c.reg ++ [c.mem.load (c.reg .rsp) 8] := rfl
  have stack : StackAt m.mem (m.reg .rsp) (FRAMED.map c.reg ++ [c.mem.load (c.reg .rsp) 8]) := by
    rw [sp, mem, ← shape]
    exact framed
  obtain ⟨e, ran, restored⟩ := @pops_effects L.env L.address FRAMED _ _ m rfl (by decide) (by decide) stack
  refine .straight ran ⟨?_, fun r member => restored.values _ (mem_zip_map c.reg member), ?_⟩
  · rw [restored.sp, sp]
    change c.reg .rsp - 40 + 40 = _
    bv_omega
  · have top := (@X64.Memory.StackAt.append _ _ (FRAMED.map c.reg) _ framed).2.1
    have start : c.reg .rsp - 40 + BitVec.ofNat 64 (8 * (FRAMED.map c.reg).length) = c.reg .rsp := by
      change c.reg .rsp - 40 + 40 = _
      bv_omega
    rw [start] at top
    rw [restored.mem, mem]
    exact top

/-- Back in the caller, with its registers. -/
structure Returned (M : Machine) (c : Cpu) (t : X64.State) : Prop where
  address : M.address t.pc = c.mem.load (c.reg .rsp) 8
  saved : ∀ r ∈ [Reg.rbx, .r12, .r13, .r14, .rbp], t.cpu.reg r = c.reg r
  sp : t.cpu.reg .rsp = c.reg .rsp + 8

theorem epilogue_returns (loaded : L.Loaded M) {i : Nat} (here : L.At i fnEpilogue) {c d : Cpu}
    (framed : StackAt d.mem (c.reg .rsp - 40) (frameWords c)) (rbp : d.reg .rbp = c.reg .rsp - 8) :
    ∃ t, M.Steps ⟨L.offset i, d⟩ t ∧ Returned M c t := by
  have shape : fnEpilogue = restoreCalls ++ [.ret] := rfl
  rw [shape] at here
  obtain ⟨front, last⟩ := here.append _
  obtain ⟨e, run, sp, saved, top⟩ := restore_meets framed rbp i front
  have left := loaded.perform last trivial rfl (t := ⟨_, _⟩) (c := e) rfl
  refine ⟨_, (loaded.inside run).steps.trans left.steps, ?_, fun r member => ?_, ?_⟩
  · simp only [X64.Cpu.pop_fst, sp, top, Machine.address, BitVec.ofNat_toNat, BitVec.setWidth_eq]
    bv_omega
  · have framed : r ∈ FRAMED ∧ r ≠ .rsp := by
      revert r
      decide
    simpa [framed.2] using saved r framed.1
  · simp [sp]

/-! ### The function -/

theorem note_script {line : Int} {g g' : CodeGenerator} (noted : note line g = .ok () g') : g'.script = g.script := by
  unfold note at noted
  rw [get_bind_ok] at noted
  split at noted
  · rw [modify_ok.mp noted]
  · rw [(pure_ok.mp noted).2]

/-- The locals lie below the saved registers, and in the room made for them. -/
theorem locals_inside {locals : List (String × Int)} (positive : ∀ l ∈ locals, 0 < l.2) {placed placed' : Dict Int × Int}
    (start : 0 ≤ placed.2) (inside : ∀ name o, placed.1.get? name = some o → -(32 + placed.2) ≤ o ∧ o < -32)
    (done : placeLocals locals placed = placed') :
    placed.2 ≤ placed'.2 ∧ ∀ name o, placed'.1.get? name = some o → -(32 + placed'.2) ≤ o ∧ o < -32 := by
  induction locals generalizing placed with
  | nil =>
    cases done
    exact ⟨Int.le_refl _, inside⟩
  | cons l rest ih =>
    have size : 0 < roundUp 8 l.2 := by
      have := positive l List.mem_cons_self
      simp only [roundUp]
      omega
    obtain ⟨more, bounds⟩ := @ih (fun t member => positive t (List.mem_cons_of_mem _ member))
      (placed.1.set l.1 (-(32 + (placed.2 + roundUp 8 l.2))), placed.2 + roundUp 8 l.2) (by simp only; omega)
      (fun name o found => by
        simp only [Dict.get?_set] at found ⊢
        split at found
        · cases found
          omega
        · have := inside name o found
          omega) done
    simp only at more
    exact ⟨by omega, bounds⟩

/-- Whatever the body does to the stack pointer, it returns to the caller with the caller's registers. -/
theorem frame_preserved (loaded : L.Loaded M) {g g' : CodeGenerator} {line : Int} {name : String} {args : List String}
    {body : List Stmt} {locals : List (String × Int)} (flat : ∀ s ∈ body, isFn s = false)
    (emission : emit (.fnDef line name args body locals) g = .ok () g') {calls : List Call}
    (script : g'.script = g.script ++ calls) {i : Nat} (here : L.At i calls) (c : Cpu) :
    ∃ h p, (do note line; enterFn name args locals : Gen Unit) g = .ok () h ∧
      M.Steps ⟨L.offset i, c⟩ ⟨L.offset (i + callsBetween g h), p⟩ ∧ p.reg .rbp = c.reg .rsp - 8 ∧
      ∀ k d, Returns h body k → M.Steps ⟨L.offset (i + callsBetween g h), p⟩ ⟨L.offset (i + callsBetween g k), d⟩ →
        d.reg .rbp = p.reg .rbp → SameOn (p.reg .rbp - 32) 48 p.mem d.mem →
        ∃ t, M.Steps ⟨L.offset (i + callsBetween g k), d⟩ t ∧ Returned M c t := by
  have between {h : CodeGenerator} {front : List Call} (script : h.script = g.script ++ front) :
      callsBetween g h = front.length := by simp [callsBetween, script]
  unfold emit at emission
  obtain ⟨_, g₁, noted, emission⟩ := bind_ok.mp emission
  obtain ⟨_, h, entered, emission⟩ := bind_ok.mp emission
  obtain ⟨prologue, inFn⟩ : h.script = g.script ++ prologueCalls name (placeLocals locals ([], 0)).2 ∧ h.inFn = true := by
    have same := note_script noted
    simp only [enterFn, asm_bind_ok, modify_ok] at entered
    rw [entered]
    simp [prologueCalls, pushes, same]
  refine ⟨h, ?_⟩
  -- The calls are the prologue and what the body and the end of the function append to it.
  obtain ⟨back, appended, -⟩ := (emitAll_emission body |>.seq leaveFn_emission) _ _ emission |>.script
  have whole : calls = prologueCalls name (placeLocals locals ([], 0)).2 ++ back := by
    rw [appended, prologue, List.append_assoc] at script
    exact (List.append_cancel_left script).symm
  obtain ⟨front, -⟩ := (whole ▸ here : L.At i _).append _
  obtain ⟨p, run, rbp, framed, -⟩ := prologue_meets name (placeLocals locals ([], 0)).2 c i front
  refine ⟨p, bind_ok.mpr ⟨_, _, noted, entered⟩, ?_, rbp, fun k d returns _ same kept => ?_⟩
  · rw [between prologue]
    exact (loaded.inside run).steps
  -- Where the body returns, an epilogue follows.
  obtain ⟨before, after, scriptK, script'⟩ := returns.epilogue flat inFn emission
  have shape : calls = prologueCalls name (placeLocals locals ([], 0)).2 ++ before ++ fnEpilogue ++ after := by
    rw [script', prologue] at script
    simpa using script.symm
  rw [prologue, List.append_assoc] at scriptK
  obtain ⟨front, -⟩ := (shape ▸ here : L.At i _).append _
  obtain ⟨-, there⟩ := front.append _
  rw [between scriptK]
  refine epilogue_returns loaded there ?_ (same.trans rbp)
  -- The six words of the frame are still where the prologue has left them.
  have start : p.reg .rbp - 32 + BitVec.ofNat 64 0 = c.reg .rsp - 40 := by
    rw [rbp]
    bv_omega
  have stack := @SameOn.stackAt _ _ _ _ kept (frameWords c) 0 (start ▸ framed) (show 0 + 8 * 6 ≤ 48 by decide) (by decide)
  rwa [start] at stack

/-- A function that only returns, with a local of five bytes. -/
def returning : Stmt := .fnDef 1 "f" [] [.op 2 .ret] [("x", 5)]

theorem frame_preserved_returning : ∃ (L : Listing) (M : Machine) (t : X64.State),
    M.Steps ⟨L.offset 0, Cpu.filled 64⟩ t ∧ Returned M (Cpu.filled 64) t := by
  obtain ⟨g', emission⟩ : ∃ g', emit returning (.new false) = .ok () g' := ⟨_, rfl⟩
  obtain ⟨L, M, loaded, calls, -, -⟩ := Listing.exists_loaded g'.script [] .silent (by cases emission; decide)
  obtain ⟨h, p, entered, run, rbp, returns⟩ := frame_preserved loaded (by simp [isFn]) emission (List.nil_append _).symm
    (calls ▸ List.prefix_refl _ : L.At 0 g'.script) (Cpu.filled 64)
  -- The first way out is at once.
  have noted : (do emitAll []; note 2 : Gen Unit) h = .ok () h := by
    cases entered
    rfl
  obtain ⟨t, more, back⟩ := returns h p (@Returns.ret _ _ [] _ _ _ rfl noted) (.refl _) rfl (.refl _ _ _)
  exact ⟨L, M, t, run.trans more, back⟩

end Aclm.Codegen
