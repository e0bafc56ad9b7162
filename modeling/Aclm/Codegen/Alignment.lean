import Aclm.Codegen.Consistency
import Aclm.Codegen.DataLayout

/-! Alignments in the data section and in the memory that the image is loaded into. -/

set_option autoImplicit false

namespace Aclm.Codegen

open X64.Elf (address)
open Encoder

theorem padding_aligned (a off : Int) : (off + (a - off % a) % a) % a = 0 := by
  have whole : off + (a - off % a) = a + a * (off / a) := by
    have := Int.emod_add_mul_ediv off a
    omega
  rw [Int.add_emod, Int.emod_emod_of_dvd _ dvd_rfl, ← Int.add_emod, whole, Int.add_mul_emod_self_left, Int.emod_self]

/-- The generator when it collects the data. -/
def collecting (opts : Options) (p : Program) : CodeGenerator :=
  { CodeGenerator.new opts.listing with
    baremetal := p.statements.any baremetalStmt, structs := collectStructs p.statements [] }

/-- The address at which the datum declared behind these statements is loaded: that of the data section and the offset
that the datum gets. -/
def DatumAddress (opts : Options) (p : Program) (image : List X64.Byte) (before : List Stmt) (at' : Int) : Prop :=
  ∃ g a h off base, emitted opts p = .ok (g, a) ∧ collectAll before (collecting opts p) 0 = .ok (h, off) ∧
    address image (dataOffset opts g a.code.length) = some base ∧ at' = base + off

/-- The data section begins at a multiple of `n`. On Linux it follows 120 bytes of headers and the code, or begins a page of
its own; a kernel has 16464 bytes before the code, and three bytes in the place of code that is empty. -/
def SectionAligned (opts : Options) (p : Program) (n : Nat) : Prop :=
  ∀ g a, emitted opts p = .ok (g, a) →
    if g.baremetal then n ∣ 16464 + if a.code.length = 0 then 3 else a.code.length
    else opts.debug = false ∧ opts.wx = true ∨ n ∣ 120 + a.code.length

theorem page_dvd {n : Nat} (small : ∃ k ≤ 12, n = 2 ^ k) : n ∣ 4096 := by
  obtain ⟨k, bound, rfl⟩ := small
  exact pow_dvd_pow 2 bound

/-- What the layouts put before the data section. -/
theorem section_dvd {opts : Options} {g : CodeGenerator} {n codeLen : Nat} (small : ∃ k ≤ 12, n = 2 ^ k) :
    n ∣ loadBase g + dataOffset opts g codeLen ↔
      if g.baremetal then n ∣ 16464 + if codeLen = 0 then 3 else codeLen
      else opts.debug = false ∧ opts.wx = true ∨ n ∣ 120 + codeLen := by
  have page := page_dvd small
  have payload : Image.payloadOffset = 16464 := by decide
  have stop : Image.STOP.length = 3 := rfl
  have multiple (m : Nat) : n ∣ 4096 * m := page.mul_right m
  unfold loadBase dataOffset
  by_cases bare : g.baremetal = true
  · simp only [bare, if_true, payload, stop]
    rw [show Image.LOAD_ADDR = 4096 * 256 from rfl]
    exact (Nat.dvd_add_right (multiple 256))
  · simp only [bare]
    have linux : Image.LOAD_VADDR = 4096 * 1024 := rfl
    by_cases debug : opts.debug = true
    · simp only [debug, if_true, linux]
      simpa using Nat.dvd_add_right (multiple 1024)
    · by_cases wx : opts.wx = true
      · have paged : (Image.wxCodeDataFileOffsets codeLen).2 = 4096 * ((4096 + codeLen + 4095) / 4096) := by
          have start : Image.align Image.PAGE (Image.EHDR_SIZE + 2 * Image.PHDR_SIZE) = 4096 := by decide
          simp only [Image.wxCodeDataFileOffsets, start]
          rw [Image.align, Image.PAGE, Nat.mul_comm]
          rfl
        simp only [debug, wx, if_true, linux, paged]
        simpa using (multiple 1024).add (multiple _)
      · simp only [debug, wx, linux]
        simpa using Nat.dvd_add_right (multiple 1024)

/-- The datum behind an alignment to `n` is loaded at a multiple of `n`. -/
def AlignHonoured (opts : Options) (p : Program) (image : List X64.Byte) (before : List Stmt) (line : Int) (n : Nat) : Prop :=
  ∃ at', DatumAddress opts p image (before ++ [.op line (.dataAlign n)]) at' ∧ (n : Int) ∣ at'

/-- The offset behind an alignment is a multiple of it. -/
theorem collected_aligned {before : List Stmt} {line : Int} {n : Nat} {g h : CodeGenerator} {off : Int}
    (run : collectAll (before ++ [.op line (.dataAlign n)]) g 0 = .ok (h, off)) : (n : Int) ∣ off := by
  rw [collectAll_append] at run
  cases first : collectAll before g 0 with
  | error e => rw [first] at run; cases run
  | ok out =>
    rw [first] at run
    cases run
    exact Int.dvd_of_emod_eq_zero (padding_aligned n out.2)

theorem collectAll_prefix {before behind : List Stmt} {g g' : CodeGenerator} (whole : collectData (before ++ behind) g 0 = .ok g') :
    ∃ h off, collectAll before g 0 = .ok (h, off) := by
  rw [collectData_eq, collectAll_append] at whole
  cases first : collectAll before g 0 with
  | error e => rw [first] at whole; cases whole
  | ok out => exact ⟨out.1, out.2, rfl⟩

/-- In every layout the datum behind an alignment is loaded at a multiple of it exactly when the data section is. -/
theorem align_honoured_iff {opts : Options} {p : Program} {image : List X64.Byte} (ok : generate opts p = .ok image) {n : Nat}
    (small : ∃ k ≤ 12, n = 2 ^ k) {before behind : List Stmt} {line line' : Int} {decl : Op} {name : String}
    (follows : p.statements = before ++ .op line (.dataAlign n) :: .op line' decl :: behind)
    (_datum : datumName decl = some name) :
    AlignHonoured opts p image before line n ↔ SectionAligned opts p n := by
  obtain ⟨⟨g, a⟩, emission, rest⟩ := bind_eq_ok.mp ok
  obtain ⟨linked, link, rest⟩ := bind_eq_ok.mp rest
  obtain ⟨-, -, written⟩ := bind_eq_ok.mp rest
  have placed := placement_of_writeImage written
  rw [(Assembler.link_fields (finished_of_emitted emission).run link).1] at placed
  have base := placed.dataAddress 0 (Nat.zero_le _)
  rw [Nat.add_zero, Nat.add_zero] at base
  obtain ⟨g₀, prepared, -⟩ := emitted_ok.mp emission
  obtain ⟨m, collected, -⟩ := bind_eq_ok.mp prepared
  have shape : p.statements = (before ++ [.op line (.dataAlign n)]) ++ .op line' decl :: behind := by simp [follows]
  have whole : collectData ((before ++ [.op line (.dataAlign n)]) ++ .op line' decl :: behind) (collecting opts p) 0 = .ok m :=
    shape ▸ collected
  obtain ⟨h, off, run⟩ := collectAll_prefix whole
  have aligned := collected_aligned run
  -- The offset is a multiple, so the address is one when the section's is.
  have address_iff : (n : Int) ∣ (loadBase g + dataOffset opts g a.code.length : Nat) + off ↔
      n ∣ loadBase g + dataOffset opts g a.code.length := by
    rw [Int.dvd_add_left aligned, Int.natCast_dvd_natCast]
  rw [section_dvd small] at address_iff
  constructor
  · rintro ⟨at', ⟨g', a', h', off', base', emission', run', base'', rfl⟩, divides⟩ g'' a'' emission''
    obtain ⟨rfl, rfl⟩ : g = g' ∧ a = a' := by simpa using emission.symm.trans emission'
    obtain ⟨rfl, rfl⟩ : g = g'' ∧ a = a'' := by simpa using emission.symm.trans emission''
    cases run.symm.trans run'
    cases base.symm.trans base''
    exact address_iff.mp divides
  · intro section'
    exact ⟨_, ⟨g, a, h, off, _, emission, run, base, rfl⟩, address_iff.mpr (section' g a emission)⟩

/-- Eight bytes on a boundary of sixteen. -/
def alignedDatum : Program := ⟨[.op 1 (.dataAlign 16), .op 2 (.dataAlloc "x" (.bytes 8))]⟩

theorem align_honoured_wx : ∃ image, generate ⟨false, true, false⟩ alignedDatum = .ok image ∧
    AlignHonoured ⟨false, true, false⟩ alignedDatum image [] 1 16 := by
  have writes : (generate ⟨false, true, false⟩ alignedDatum).isOk = true := by decide
  have hosted : (emitted ⟨false, true, false⟩ alignedDatum).map (fun e => e.1.baremetal) = .ok false := by decide
  obtain ⟨image, ok⟩ := exists_of_isOk writes
  refine ⟨image, ok, (align_honoured_iff ok ⟨4, by decide, rfl⟩
    (show alignedDatum.statements = [] ++ _ :: _ :: _ from rfl) rfl).mpr fun g a emission => ?_⟩
  rw [emission] at hosted
  rw [if_neg (by simp [show g.baremetal = false from Except.ok.inj hosted])]
  exact .inl ⟨rfl, rfl⟩

/-- In the plain layout the same datum is at 0x400082. -/
theorem align_broken : ¬∀ (opts : Options) (p : Program) (image : List X64.Byte) (n : Nat) (before behind : List Stmt)
    (line line' : Int) (decl : Op) (name : String), generate opts p = .ok image → (∃ k ≤ 12, n = 2 ^ k) →
    p.statements = before ++ .op line (.dataAlign n) :: .op line' decl :: behind → datumName decl = some name →
    AlignHonoured opts p image before line n := by
  intro all
  have evaluates : (do
      let image ← generate ⟨false, false, false⟩ alignedDatum
      let out ← emitted ⟨false, false, false⟩ alignedDatum
      let run ← collectAll [.op 1 (.dataAlign 16)] (collecting ⟨false, false, false⟩ alignedDatum) 0
      .ok (address image (dataOffset ⟨false, false, false⟩ out.1 out.2.code.length), run.2)) = Except.ok (some 0x400082, 0) := by
    decide
  obtain ⟨image, ok, rest⟩ := bind_eq_ok.mp evaluates
  obtain ⟨⟨g, a⟩, emission, rest⟩ := bind_eq_ok.mp rest
  obtain ⟨⟨h, off⟩, run, rest⟩ := bind_eq_ok.mp rest
  simp only [Except.ok.injEq, Prod.mk.injEq] at rest
  obtain ⟨base, rfl⟩ := rest
  obtain ⟨at', ⟨g', a', h', off', base', emission', run', base'', rfl⟩, divides⟩ :=
    all _ alignedDatum image 16 [] [] 1 2 _ "x" ok ⟨4, by decide, rfl⟩ rfl rfl
  obtain ⟨rfl, rfl⟩ : g = g' ∧ a = a' := by simpa using emission.symm.trans emission'
  cases run.symm.trans run'
  cases base.symm.trans base''
  exact absurd divides (by decide)

end Aclm.Codegen
