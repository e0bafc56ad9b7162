import Aclm.Codegen.Closed
import Aclm.Codegen.DataLayout
import Aclm.Codegen.Failures
import Aclm.Codegen.Ring

/-! What the generator has reserved stays reserved, and the first initialisation of the DMA ring reserves it. -/

set_option autoImplicit false

namespace Aclm.Codegen

open X64 (Reg Byte)
open Encoder

/-! ### Emissions keep the data -/

/-- What has been reserved stays where it is, and what it holds does not change. -/
structure DataKept (g g' : CodeGenerator) : Prop where
  data : g.dataBytes <+: g'.dataBytes
  layout : ∀ name off, name ≠ "__dmaring_slots" → g.dataLayout.get? name = some off → g'.dataLayout.get? name = some off

namespace DataKept

variable {g g' g'' : CodeGenerator}

theorem same (data : g'.dataBytes = g.dataBytes) (layout : g'.dataLayout = g.dataLayout) : DataKept g g' :=
  ⟨data ▸ List.prefix_refl _, fun _ _ _ found => layout ▸ found⟩

theorem refl (g : CodeGenerator) : DataKept g g := same rfl rfl

theorem trans (first : DataKept g g') (second : DataKept g' g'') : DataKept g g'' :=
  ⟨first.data.trans second.data, fun name off other found => second.layout name off other (first.layout name off other found)⟩

end DataKept

theorem Change.dataKept {g g' : CodeGenerator} (change : Change g g') : DataKept g g' := by
  cases change with
  | reserved name bytes =>
    refine ⟨?_, fun other off _ found => reserved_get? bytes found⟩
    unfold Codegen.reserved
    split
    · exact List.prefix_refl _
    · exact List.prefix_append _ _
  | slots n =>
    refine ⟨List.prefix_refl _, fun name off other found => ?_⟩
    rw [Dict.get?_set, if_neg (Ne.symm other)]
    exact found
  | _ => exact .same rfl rfl

/-- A step of an emission that keeps what has been reserved. -/
def KeepsData {α : Type} (m : Gen α) : Prop := ∀ g a g', m g = .ok a g' → DataKept g g'

namespace KeepsData

variable {α β : Type}

theorem keep {m : Gen α} (same : ∀ g a g', m g = .ok a g' → g' = g) : KeepsData m :=
  fun g a g' ok => same g a g' ok ▸ .refl g

theorem pure (a : α) : KeepsData (pure a) := keep fun _ _ _ ok => (pure_ok.mp ok).2

theorem get : KeepsData get := keep fun _ _ _ ok => (get_ok.mp ok).2

theorem modify {f : CodeGenerator → CodeGenerator} (kept : ∀ g, DataKept g (f g)) : KeepsData (modify f) :=
  fun g _ _ ok => modify_ok.mp ok ▸ kept g

theorem bind {x : Gen α} {f : α → Gen β} (first : KeepsData x) (rest : ∀ a, KeepsData (f a)) : KeepsData (x >>= f) := by
  intro g b g' ok
  obtain ⟨a, m, ok₁, ok₂⟩ := bind_ok.mp ok
  exact (first _ _ _ ok₁).trans (rest _ _ _ _ ok₂)

theorem asm (calls : List Call) : KeepsData (asm calls) := modify fun _ => .same rfl rfl

theorem ite {p : Prop} [Decidable p] {x y : Gen α} (yes : KeepsData x) (no : KeepsData y) : KeepsData (if p then x else y) := by
  split <;> assumption

theorem emitOp (op : Op) : KeepsData (emitOp op) := by
  intro g a g' ok
  exact emitOp_kept .refl .trans Change.dataKept (fun g name => .same rfl rfl) ok

theorem note (line : Int) : KeepsData (note line) := bind get fun _ => ite (modify fun _ => .same rfl rfl) (pure _)

theorem step (s : Step) : KeepsData s.emit := by
  cases s with
  | op line op => exact bind (note line) fun _ => emitOp op
  | enter line name args locals =>
    exact bind (note line) fun _ => bind (asm _) fun _ => bind (asm _) fun _ => bind (asm _) fun _ => modify fun _ => .same rfl rfl
  | leave => exact bind (modify fun _ => .same rfl rfl) fun _ => asm _
  | finish stmts => exact bind get fun _ => ite (pure _) (asm _)

theorem run (steps : List Step) : KeepsData (runSteps steps) := by
  induction steps with
  | nil => exact pure _
  | cons s rest ih => exact bind (step s) fun _ => ih

end KeepsData

/-! ### The first initialisation of the ring -/

/-- The number of slots that an initialisation of the ring asks for. -/
def Step.ringSlots : Step → Option Int
  | .op _ (.kernelDmaRingInit slots) => some slots
  | _ => none

/-- The sizes of all initialisations of a program, in the order in which they are emitted. -/
def ringSizes (p : Program) : List Int := (programSteps p.statements).filterMap Step.ringSlots

/-- The ring has its header and its slots among the data, all zero. -/
def RingReserved (g : CodeGenerator) (slots : Int) : Prop :=
  ∃ off : Nat, g.dataLayout.get? "__dmaring" = some (off : Int) ∧ Holds g.dataBytes off (zeroBytes (16 + slots * 16))

theorem RingReserved.kept {g g' : CodeGenerator} {slots : Int} (there : RingReserved g slots) (kept : DataKept g g') :
    RingReserved g' slots := by
  obtain ⟨off, found, holds⟩ := there
  obtain ⟨more, bytes⟩ := kept.data
  exact ⟨off, kept.layout _ _ (by decide) found, bytes ▸ holds.append more⟩

/-- The ring is reserved by nothing else. -/
theorem Made.unreserved {K : String → Prop} {L G : List String} {g g' : CodeGenerator} (made : Made K L G g g')
    (other : "__dmaring" ∉ G) (fresh : g.dataLayout.contains "__dmaring" = false) :
    g'.dataLayout.contains "__dmaring" = false := by
  by_contra placed
  rcases made.shared "__dmaring" (by decide) (by simpa using placed) with known | given
  · rw [fresh] at known
    cases known
  · exact other given

theorem step_refers {s : Step} (other : s.ringSlots = none) : ∃ G, "__dmaring" ∉ G ∧ Refers (fun _ => True) [] G s.emit := by
  cases s with
  | op line op =>
    refine ⟨gives op, fun given => ?_, .seq (note_refers line) ((emitOp_refers op).mono fun _ _ => trivial)⟩
    cases op with
    | kernelDmaRingInit => cases other
    | kernelHeapInit => exact absurd (List.mem_singleton.mp given) (by decide)
    | _ => cases given
  | enter line name args locals => exact ⟨[], List.not_mem_nil, .seq (note_refers line) (enterFn_refers name args locals)⟩
  | leave => exact ⟨[], List.not_mem_nil, leaveFn_refers⟩
  | finish stmts => exact ⟨[], List.not_mem_nil, emitEnd_refers stmts⟩

theorem step_reserves {s : Step} {n : Int} (init : s.ringSlots = some n) {g g' : CodeGenerator} (stubs : Stubs g)
    (fresh : g.dataLayout.contains "__dmaring" = false) (ok : s.emit g = .ok () g') : RingReserved g' n := by
  cases s with
  | op line op =>
    cases op with
    | kernelDmaRingInit slots =>
      obtain rfl : slots = n := Option.some.inj init
      obtain ⟨_, m, noted, emission⟩ := bind_ok.mp ok
      have noted := @note_refers (fun _ => True) line _ _ _ stubs noted
      have fresh := noted.unreserved List.not_mem_nil fresh
      simp only [emitOp, kernelDmaRingInit, reserveRing_bind_ok, asm_ok] at emission
      obtain ⟨found, bytes⟩ := ringReserved_data fresh slots
      refine ⟨m.dataBytes.length, emission ▸ found, ?_⟩
      have data : g'.dataBytes = m.dataBytes ++ zeroBytes (16 + slots * 16) := emission ▸ bytes
      rw [data]
      exact .last _ _
    | _ => cases init
  | _ => cases init

/-- The first initialisation reserves the ring, whatever is emitted after it. -/
theorem runSteps_reserves {steps : List Step} {n : Int} {rest : List Int} (sizes : steps.filterMap Step.ringSlots = n :: rest)
    {g g' : CodeGenerator} (stubs : Stubs g) (fresh : g.dataLayout.contains "__dmaring" = false)
    (ok : runSteps steps g = .ok () g') : RingReserved g' n := by
  induction steps generalizing g with
  | nil => cases sizes
  | cons s steps ih =>
    obtain ⟨_, m, first, later⟩ := bind_ok.mp ok
    cases init : s.ringSlots with
    | none =>
      obtain ⟨G, other, refers⟩ := step_refers init
      have made := refers _ _ _ stubs first
      rw [List.filterMap_cons_none init] at sizes
      exact ih sizes made.stubs (made.unreserved other fresh) later
    | some slots =>
      rw [List.filterMap_cons_some init] at sizes
      cases sizes
      exact (step_reserves init stubs fresh first).kept (KeepsData.run steps _ _ _ later)

/-- The ring of a program that declares none itself has the bytes that its first initialisation asks for. -/
theorem ring_reserved {opts : Options} {p : Program} {g : CodeGenerator} {a : Assembler} (emission : emitted opts p = .ok (g, a))
    (undeclared : ∀ s ∈ p.statements, "__dmaring" ∉ declares s) {n : Int} {rest : List Int} (sizes : ringSizes p = n :: rest) :
    RingReserved g n := by
  obtain ⟨g₀, prepared, ok, -⟩ := emitted_ok.mp emission
  obtain ⟨layout, none⟩ := prepare_layout prepared "__dmaring"
  have stubs : Stubs g₀ := by
    intro stub member
    rw [none] at member
    cases member
  rw [emitProgram_steps] at ok
  refine runSteps_reserves sizes stubs ?_ ok
  by_contra placed
  rcases layout.mp (by simpa using placed) with ⟨s, member, declared⟩ | ⟨other, -⟩ | ⟨other, -⟩
  · exact undeclared s member declared
  · exact absurd other (by decide)
  · exact absurd other (by decide)

end Aclm.Codegen
