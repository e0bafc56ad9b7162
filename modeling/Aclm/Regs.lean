import Aclm.Python
import Aclm.X64.Register

/-! The register map: virtual names, hardware names and the reserved ones. -/

set_option autoImplicit false

namespace Aclm

open X64 (Reg)

def VIRTUAL : Dict Reg :=
  [("reg1", .rax), ("reg2", .rbx), ("reg3", .rcx), ("reg4", .rdx), ("reg5", .rsi), ("reg6", .rdi),
   ("reg7", .r8), ("reg8", .r9), ("reg9", .r10), ("reg10", .r12), ("reg11", .r13), ("reg12", .r14)]

def VIRTUAL_COMPAT : Dict Reg := [("reg13", .r14)]

def PARTIAL32 : Dict Reg :=
  [("eax", .rax), ("ebx", .rbx), ("ecx", .rcx), ("edx", .rdx), ("esi", .rsi), ("edi", .rdi),
   ("r8d", .r8), ("r9d", .r9), ("r10d", .r10), ("r12d", .r12), ("r13d", .r13), ("r14d", .r14)]

def PHYSICAL : Dict Reg :=
  [("rax", .rax), ("rbx", .rbx), ("rcx", .rcx), ("rdx", .rdx), ("rsi", .rsi), ("rdi", .rdi),
   ("r8", .r8), ("r9", .r9), ("r10", .r10), ("r12", .r12), ("r13", .r13), ("r14", .r14)]

def RESERVED : List String := ["rbp", "rsp", "rip", "r15", "r11", "esp", "ebp"]

def SYSCALL_ARGS : List Reg := [.rdi, .rsi, .rdx, .r10, .r8, .r9]

def SCRATCH : Reg := .r15

def resolve (name : String) : Except PyErr Reg :=
  let n := lower (strip name)
  if n ∈ RESERVED then .error (.valueError s!"register '{name}' is reserved (stack/scratch/IP)")
  else match VIRTUAL.get? n with
  | some r => .ok r
  | none => match VIRTUAL_COMPAT.get? n with
    | some r => .ok r
    | none => match PARTIAL32.get? n with
      | some r => .ok r
      | none => match PHYSICAL.get? n with
        | some r => .ok r
        | none => .error (.valueError s!"unknown register '{name}'")

def isRegName (name : String) : Bool :=
  let n := lower (strip name)
  VIRTUAL.contains n || VIRTUAL_COMPAT.contains n || PHYSICAL.contains n || PARTIAL32.contains n

/-- The registers a program can name. -/
def User (r : Reg) : Prop := r ∈ PHYSICAL.map Prod.snd

instance (r : Reg) : Decidable (User r) := inferInstanceAs (Decidable (r ∈ _))

theorem Dict.mem_of_get? {α : Type} {d : Dict α} {key : String} {value : α}
    (found : d.get? key = some value) : value ∈ d.map Prod.snd := by
  induction d with
  | nil => cases found
  | cons entry rest ih =>
    unfold Dict.get? at found
    split at found
    · cases found; exact List.mem_cons_self
    · exact List.mem_cons_of_mem _ (ih found)

/-- Whatever name is resolved, the register is a user-visible one. -/
theorem user_of_resolve {name : String} {r : Reg} (ok : resolve name = .ok r) : User r := by
  have virtual : ∀ s ∈ VIRTUAL.map Prod.snd, User s := by decide
  have compat : ∀ s ∈ VIRTUAL_COMPAT.map Prod.snd, User s := by decide
  have partial32 : ∀ s ∈ PARTIAL32.map Prod.snd, User s := by decide
  unfold resolve at ok
  simp only at ok
  split at ok
  · cases ok
  split at ok
  · next found => cases ok; exact virtual _ (Dict.mem_of_get? found)
  split at ok
  · next found => cases ok; exact compat _ (Dict.mem_of_get? found)
  split at ok
  · next found => cases ok; exact partial32 _ (Dict.mem_of_get? found)
  split at ok
  · next found => cases ok; exact Dict.mem_of_get? found
  · cases ok

/-- None of the names of a register is a reserved one. -/
theorem resolve_of_isRegName {name : String} (reg : isRegName name = true) : ∃ r, resolve name = .ok r := by
  have free : ∀ n ∈ RESERVED, VIRTUAL.contains n = false ∧ VIRTUAL_COMPAT.contains n = false ∧
      PHYSICAL.contains n = false ∧ PARTIAL32.contains n = false := by decide
  simp only [isRegName, Bool.or_eq_true] at reg
  simp only [resolve]
  generalize lower (strip name) = n at reg ⊢
  split
  · next reserved =>
    obtain ⟨virtual, compat, physical, partial32⟩ := free n reserved
    simp [virtual, compat, physical, partial32] at reg
  · simp only [Dict.contains] at reg
    cases virtual : VIRTUAL.get? n with
    | some r => exact ⟨r, rfl⟩
    | none =>
      cases compat : VIRTUAL_COMPAT.get? n with
      | some r => exact ⟨r, rfl⟩
      | none =>
        cases low : PARTIAL32.get? n with
        | some r => exact ⟨r, rfl⟩
        | none =>
          cases physical : PHYSICAL.get? n with
          | some r => exact ⟨r, rfl⟩
          | none => simp [virtual, compat, low, physical] at reg

theorem resolve_reg10 : resolve "reg10" = .ok .r12 := by decide

theorem user_iff (r : Reg) : User r ↔ r ≠ .rsp ∧ r ≠ .rbp ∧ r ≠ .r11 ∧ r ≠ .r15 := by
  cases r <;> decide

end Aclm
