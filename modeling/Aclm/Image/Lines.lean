import Aclm.Dwarf.Line
import Aclm.Image.Sections

/-! The line table that a reader gets from the debug sections. -/

set_option autoImplicit false

namespace Aclm.Image

open X64 (Byte leBytes leBytes_length leValue leValue_leBytes)
open X64.Elf
open Dwarf

/-! ### What the writer encodes -/

theorem ofNat_toNat_small {n : Nat} (small : n < 256) : (BitVec.ofNat 8 n).toNat = n := by
  rw [BitVec.toNat_ofNat]
  exact Nat.mod_eq_of_lt small

theorem takeUleb_uleb (n : Nat) (rest : List Byte) : takeUleb (uleb n ++ rest) = some (n, rest) := by
  induction n using uleb.induct with
  | case1 n last =>
    rw [uleb, if_pos last, List.singleton_append, takeUleb, ofNat_toNat_small (by omega), if_pos (by omega)]
    congr 2
    omega
  | case2 n more ih =>
    rw [uleb, if_neg more, List.cons_append, takeUleb, ofNat_toNat_small (by omega), if_neg (by omega), ih]
    simp only [Option.map_some]
    congr 2
    omega

theorem takeSleb_sleb2 (v : Int) (rest : List Byte) : takeSleb (sleb2 v ++ rest) = some (v, rest) := by
  induction v using sleb2.induct with
  | case1 v byte next last =>
    have small : byte < 128 := by omega
    rw [sleb2, if_pos last, List.singleton_append, takeSleb, ofNat_toNat_small (by omega)]
    rcases last with ⟨zero, low⟩ | ⟨minus, high⟩
    · rw [if_pos low, Option.some.injEq, Prod.mk.injEq]
      exact ⟨by omega, rfl⟩
    · rw [if_neg (Nat.not_lt.mpr high), if_pos small, Option.some.injEq, Prod.mk.injEq]
      exact ⟨by omega, rfl⟩
  | case2 v byte next more ih =>
    have small : byte < 128 := by omega
    rw [sleb2, if_neg more, List.cons_append, takeSleb, ofNat_toNat_small (by omega), if_neg (by omega),
      if_neg (by omega), ih, Option.map_some, Option.some.injEq, Prod.mk.injEq]
    exact ⟨by omega, rfl⟩

/-- A number of more than seven bits starts with a byte that has its high bit set. -/
theorem sleb2_large {v : Int} (large : v < -64 ∨ 63 < v) : ∃ b bs, sleb2 v = b :: bs ∧ 128 ≤ b.toNat := by
  rw [sleb2, if_neg (by omega)]
  refine ⟨_, _, rfl, ?_⟩
  rw [ofNat_toNat_small (by omega)]
  omega

/-! ### The opcodes of the program -/

/-- The header that every line program has here. -/
def lineOpcodes : Header := ⟨1, -5, 14, 13, [0, 1, 1, 1, 1, 0, 0, 0, 1, 0, 0, 1]⟩

section Opcodes

variable (r : Registers) (rest : List Byte)

theorem copy_step : lineOpcodes.step r (1 :: rest) = some ⟨r, [.row r.address r.line], rest⟩ := rfl

theorem advancePc_step (n : Nat) :
    lineOpcodes.step r (2 :: (uleb n ++ rest)) = some ⟨⟨r.address + n, r.line⟩, [], rest⟩ := by
  change (takeUleb (uleb n ++ rest)).map _ = _
  rw [takeUleb_uleb, Option.map_some, Header.advance, lineOpcodes, Nat.one_mul]

theorem advanceLine_step {bs : List Byte} {v : Int} (taken : takeSleb bs = some (v, rest)) :
    lineOpcodes.step r (3 :: bs) = some ⟨⟨r.address, r.line + v⟩, [], rest⟩ := by
  change (takeSleb bs).map _ = _
  rw [taken, Option.map_some]

theorem special_step {b : Byte} (special : 13 ≤ b.toNat) : ∃ line,
    lineOpcodes.step r (b :: rest) =
      some ⟨⟨r.address + (b.toNat - 13) / 14, line⟩, [.row (r.address + (b.toNat - 13) / 14) line], rest⟩ := by
  refine ⟨r.line + (-5 + ((b.toNat - 13) % 14 : Nat)), ?_⟩
  have above : lineOpcodes.opcodeBase ≤ b.toNat := special
  rw [Header.step, if_pos above, Header.special, Header.advance]
  simp only [lineOpcodes, Nat.one_mul]

end Opcodes

/-! ### Its header -/

section Units

variable {unit program : List Byte} {sourcePath : String}

theorem field_prologue {i : Nat} (inside : i < 18) : field (linePrologue sourcePath) i 1 =
    field ([1, 1, 1, 0xFB, 14, 13] ++ [0, 1, 1, 1, 1, 0, 0, 0, 1, 0, 0, 1]) i 1 := by
  simp only [linePrologue, List.append_assoc]
  rw [← List.append_assoc, field_within (by simp; omega)]

theorem LineUnit.header_field (read : LineUnit unit (linePrologue sourcePath) program) {i : Nat} (inside : i < 18) :
    field unit (10 + i) 1 =
      field ([1, 1, 1, 0xFB, 14, 13] ++ [0, 1, 1, 1, 1, 0, 0, 0, 1, 0, 0, 1]) i 1 := by
  have stands : StandsAt unit 10 (linePrologue sourcePath) := by
    rw [← read.header]
    exact List.take_prefix _ _
  have long : 18 ≤ (linePrologue sourcePath).length := by
    simp only [linePrologue, List.length_append, List.length_cons, List.length_nil]
    omega
  rw [stands.field (by omega), field_prologue inside]

theorem LineUnit.lineHeader_eq (read : LineUnit unit (linePrologue sourcePath) program) :
    lineHeader unit = lineOpcodes := by
  have base : field unit 15 1 = 13 := @LineUnit.header_field _ _ _ read 5 (by decide)
  have lengths : (List.range 12).map (fun i => field unit (16 + i) 1) = lineOpcodes.lengths := by
    have each : ∀ i ∈ List.range 12, field unit (16 + i) 1 =
        field ([1, 1, 1, 0xFB, 14, 13] ++ [0, 1, 1, 1, 1, 0, 0, 0, 1, 0, 0, 1]) (6 + i) 1 := by
      intro i member
      have small := List.mem_range.mp member
      rw [← read.header_field (by omega), ← Nat.add_assoc]
    rw [List.map_congr_left each]
    rfl
  rw [lineHeader, base, lengths, @LineUnit.header_field _ _ _ read 0 (by decide),
    @LineUnit.header_field _ _ _ read 3 (by decide), @LineUnit.header_field _ _ _ read 4 (by decide)]
  rfl

theorem LineUnit.opcodes_eq (read : LineUnit unit (linePrologue sourcePath) program) : opcodes unit = program := by
  have size : field unit 0 4 = (unit.drop 4).length := by
    rw [List.length_drop, ← read.length]
    rfl
  rw [opcodes, size, List.take_length, List.drop_drop, ← Nat.add_assoc]
  exact read.program

theorem LineUnit.lineTable_eq (read : LineUnit unit (linePrologue sourcePath) program) :
    lineTable unit = lineOpcodes.table .initial program := by
  have ops : field unit 11 1 = 1 := @LineUnit.header_field _ _ _ read 1 (by decide)
  rw [lineTable, if_pos ⟨read.version, ops⟩, read.lineHeader_eq, read.opcodes_eq]

end Units

/-! ### Its rows -/

theorem uleb_small {n : Nat} (small : n < 128) : uleb n = [BitVec.ofNat 8 n] := by
  rw [uleb, if_pos (Nat.div_eq_of_lt small), Nat.mod_eq_of_lt small]

theorem end_step (r : Registers) : lineOpcodes.step r (extended 1 []) = some ⟨.initial, [.endSequence], []⟩ := by
  rw [extended, List.length_nil, uleb_small (by decide)]
  rfl

theorem setAddress_step (r : Registers) (rest : List Byte) :
    lineOpcodes.step r (extended 2 (leBytes 8 codeBase) ++ rest) = some ⟨⟨codeBase, r.line⟩, [], rest⟩ := by
  have size : takeUleb (uleb (1 + (leBytes 8 codeBase).length) ++ ([2] ++ leBytes 8 codeBase ++ rest)) =
      some (9, 2 :: (leBytes 8 codeBase ++ rest)) := takeUleb_uleb _ _
  have taken : (2 :: (leBytes 8 codeBase ++ rest)).take 9 = 2 :: leBytes 8 codeBase :=
    congrArg (2 :: ·) (List.take_left' (leBytes_length _ _))
  have dropped : (2 :: (leBytes 8 codeBase ++ rest)).drop 9 = rest := List.drop_left' (leBytes_length _ _)
  have value : leValue (leBytes 8 codeBase) = codeBase := by
    rw [leValue_leBytes]
    decide
  have shape : extended 2 (leBytes 8 codeBase) ++ rest =
      0 :: (uleb (1 + (leBytes 8 codeBase).length) ++ ([2] ++ leBytes 8 codeBase ++ rest)) := by
    simp only [extended, List.append_assoc, List.cons_append, List.nil_append]
  have room : ¬ (2 :: (leBytes 8 codeBase ++ rest)).length < 9 := by
    simp only [List.length_cons, List.length_append, leBytes_length]
    omega
  rw [shape]
  change extendedOpcode r _ = _
  rw [extendedOpcode, size, Option.bind_some]
  simp only [taken, dropped, value, room, if_false]
  rfl

theorem setFile_step (r : Registers) (rest : List Byte) : lineOpcodes.step r (4 :: (uleb 1 ++ rest)) = some ⟨r, [], rest⟩ := by
  rw [uleb_small (by decide)]
  rfl

theorem table_end (r : Registers) : lineOpcodes.table r (extended 1 []) = some [.endSequence] := by
  rw [Header.table_step (end_step r), Header.table_nil, Option.map_some, List.append_nil]

theorem map_nil_append (t : Option (List Entry)) : t.map ([] ++ ·) = t := by
  cases t <;> rfl

/-- The address is brought to the offset of the next entry. -/
theorem table_advance {base off o : Nat} (line : Int) (later : off ≤ o) (rest : List Byte) :
    lineOpcodes.table ⟨base + off, line⟩ ((if off < o then [2] ++ uleb (o - off) else []) ++ rest) =
      lineOpcodes.table ⟨base + o, line⟩ rest := by
  split
  · rw [List.append_assoc, List.singleton_append, Header.table_step (advancePc_step _ _ _), map_nil_append]
    rw [Nat.add_assoc, Nat.add_sub_cancel' later]
  · rw [List.nil_append, show o = off by omega]

/-- What the first row of a table is. -/
theorem first_row {e e' : Entry} {more : List Entry} {t : Option (List Entry)}
    (table : t.map ([e] ++ ·) = some (e' :: more)) : e = e' := by
  obtain ⟨rows, -, shape⟩ := Option.map_eq_some_iff.mp table
  exact (List.cons.inj shape).1

theorem first_row_iff {e : Entry} {more : List Entry} {t : Option (List Entry)} :
    t.map ([e] ++ ·) = some (e :: more) ↔ t = some more := by
  cases t with
  | none => simp
  | some rows => simp

/-- A line that differs from the one before makes a row with another line or another address: the opcode that
advances the line is taken for its own operand. -/
theorem advanceLine_wrong {d : Int} (moved : d ≠ 0) (r : Registers) (rest : List Byte) (more : List Entry) :
    lineOpcodes.table r (advanceLine d ++ ([1] ++ rest)) ≠ some (.row r.address (r.line + d) :: more) := by
  intro table
  have three (bs : List Byte) : lineOpcodes.step r (3 :: 3 :: bs) = some ⟨⟨r.address, r.line + 3⟩, [], bs⟩ :=
    advanceLine_step r bs rfl
  have skip {b : Byte} (bs : List Byte) (special : 27 ≤ b.toNat) :
      lineOpcodes.table r (3 :: 3 :: b :: bs) ≠ some (.row r.address (r.line + d) :: more) := by
    intro table
    obtain ⟨line, stepped⟩ := special_step ⟨r.address, r.line + 3⟩ bs (show 13 ≤ b.toNat by omega)
    rw [Header.table_step (three _), map_nil_append, Header.table_step stepped] at table
    have same : r.address + (b.toNat - 13) / 14 = r.address := (Entry.row.inj (first_row table)).1
    omega
  by_cases small : -64 ≤ d ∧ d ≤ 63
  · rw [advanceLine, if_neg moved, if_pos small] at table
    by_cases negative : d < 0
    · rw [if_pos negative] at table
      refine skip _ ?_ table
      have high : 64 ≤ (d % 128).toNat ||| 64 := Nat.right_le_or
      have low : (d % 128).toNat ||| 64 < 2 ^ 7 := Nat.or_lt_two_pow (by omega) (by decide)
      rw [if_pos (by omega), ofNat_toNat_small (by omega)]
      omega
    · rw [if_neg negative] at table
      have advanced : lineOpcodes.step ⟨r.address, r.line + 3⟩ (3 :: (sleb2 d ++ 1 :: rest)) =
          some ⟨⟨r.address, r.line + 3 + d⟩, [], 1 :: rest⟩ := advanceLine_step _ _ (takeSleb_sleb2 d _)
      have shape : [3, 3] ++ [] ++ [3] ++ sleb2 d ++ ([1] ++ rest) = 3 :: 3 :: 3 :: (sleb2 d ++ 1 :: rest) := by
        simp only [List.cons_append, List.nil_append]
      rw [shape, Header.table_step (three _), map_nil_append, Header.table_step advanced, map_nil_append,
        Header.table_step (copy_step _ _)] at table
      have same : r.line + 3 + d = r.line + d := (Entry.row.inj (first_row table)).2
      omega
  · rw [advanceLine, if_neg moved, if_neg small] at table
    obtain ⟨b, bs, shape, high⟩ := @sleb2_large d (by omega)
    rw [shape] at table
    exact skip _ (by omega) table

theorem table_lineRows {base off : Nat} {entries : List (Nat × Int)} (sorted : entries.Pairwise (·.1 ≤ ·.1))
    (later : ∀ e ∈ entries, off ≤ e.1) :
    lineOpcodes.table ⟨base + off, 1⟩ (lineRows entries 1 off ++ extended 1 []) =
        some (entries.map (fun e => .row (base + e.1) e.2) ++ [.endSequence]) ↔ ∀ e ∈ entries, e.2 = 1 := by
  induction entries generalizing off with
  | nil => simp only [lineRows, List.nil_append, table_end, List.map_nil, List.not_mem_nil, false_imp_iff, implies_true]
  | cons e entries ih =>
    obtain ⟨o, line⟩ := e
    have reached : off ≤ o := later _ List.mem_cons_self
    have shape : lineRows ((o, line) :: entries) 1 off ++ extended 1 [] = (if off < o then [2] ++ uleb (o - off) else []) ++
        (advanceLine (line - 1) ++ ([1] ++ (lineRows entries line o ++ extended 1 []))) := by
      simp only [lineRows, List.append_assoc, Nat.max_eq_left reached]
    rw [shape, table_advance 1 reached, List.map_cons, List.forall_mem_cons]
    by_cases first : line = 1
    · subst first
      rw [Int.sub_self, advanceLine, if_pos rfl, List.nil_append, List.singleton_append, Header.table_step (copy_step _ _)]
      rw [← @ih o sorted.of_cons fun e member => List.rel_of_pairwise_cons sorted member, List.cons_append]
      exact first_row_iff.trans (and_iff_right rfl).symm
    · refine iff_of_false ?_ (fun every => first every.1)
      have wrong := @advanceLine_wrong (line - 1) (by omega) ⟨base + o, 1⟩ (lineRows entries line o ++ extended 1 [])
      simpa using wrong _

theorem sortedByOffset_pairwise (entries : List (Nat × Int)) : (sortedByOffset entries).Pairwise (·.1 ≤ ·.1) := by
  have total : Std.Total fun a b : Nat × Int => a.1 ≤ b.1 := ⟨fun a b => Nat.le_total a.1 b.1⟩
  have trans : IsTrans (Nat × Int) fun a b => a.1 ≤ b.1 := ⟨fun _ _ _ => Nat.le_trans⟩
  exact List.pairwise_insertionSort _ _

theorem table_lineProgram (entries : List (Nat × Int)) :
    lineOpcodes.table .initial (lineProgram entries) =
        some ((sortedByOffset entries).map (fun e => .row (codeBase + e.1) e.2) ++ [.endSequence]) ↔
      ∀ e ∈ entries, e.2 = 1 := by
  have same : (sortedByOffset entries).Perm entries := List.perm_insertionSort _ _
  have start := @setAddress_step .initial ([4] ++ (uleb 1 ++ (lineRows (sortedByOffset entries) 1 0 ++ extended 1 [])))
  have file := @setFile_step ⟨codeBase, 1⟩ (lineRows (sortedByOffset entries) 1 0 ++ extended 1 [])
  rw [lineProgram, List.append_assoc, List.append_assoc, List.append_assoc, Header.table_step start, map_nil_append]
  have rows := @table_lineRows codeBase 0 _ (sortedByOffset_pairwise entries) fun _ _ => Nat.zero_le _
  rw [Nat.add_zero] at rows
  change lineOpcodes.table ⟨codeBase, 1⟩ (4 :: (uleb 1 ++ _)) = _ ↔ _
  rw [Header.table_step file, map_nil_append]
  exact rows.trans (forall_congr' fun e => imp_congr_left same.mem_iff)

/-! ### The table in the file -/

/-- What a reader of the file makes of the section `.debug_line`. -/
def lineTableOf (image : List Byte) : Option (List Entry) :=
  (sectionNamed image (utf8 ".debug_line")).bind fun s => lineTable (s.contents image)

/-- A row for every entry, in the order of the offsets, and the end of the sequence. -/
def LineTableRight (image : List Byte) (lineEntries : List (Nat × Int)) : Prop :=
  lineTableOf image =
    some ((sortedByOffset lineEntries).map (fun e => .row (codeBase + e.1) e.2) ++ [.endSequence])

theorem DebugSections.lineTableOf_eq {image code data : List Byte} {sourcePath : String} {lineEntries : List (Nat × Int)}
    {line info abbr strings : Section}
    (found : DebugSections image code data sourcePath lineEntries line info abbr strings) :
    lineTableOf image = lineOpcodes.table .initial (lineProgram lineEntries) := by
  have names := found.names
  rw [found.table] at names
  simp only [List.map_cons, List.map_nil, List.cons.injEq, and_true] at names
  obtain ⟨first, second, -⟩ := names
  have other : utf8 "" ≠ utf8 ".debug_line" := by decide +kernel
  have here : sectionNamed image (utf8 ".debug_line") = some line := by
    simp [sectionNamed, found.table, first, second, other]
  rw [lineTableOf, here, Option.bind_some, found.lineUnit.lineTable_eq]

/-- The rows are right just where there are entries and all of them are for line 1. -/
theorem line_table_iff {code data image : List Byte} {sourcePath : String} {lineEntries : List (Nat × Int)} {entry : Nat}
    (ok : buildElf64ExeDebug code data sourcePath lineEntries entry = .ok image) :
    LineTableRight image lineEntries ↔ lineEntries ≠ [] ∧ ∀ e ∈ lineEntries, e.2 = 1 := by
  obtain ⟨line, info, abbr, strings, found⟩ := sections_found ok
  rw [LineTableRight, found.lineTableOf_eq]
  by_cases empty : lineEntries = []
  · -- The table has a row for the start of the code.
    have one := (table_lineProgram [(0, 1)]).mpr (by simp)
    rw [if_pos empty, one, empty]
    simp [sortedByOffset]
  · rw [if_neg empty, table_lineProgram]
    exact (and_iff_right empty).symm

theorem line_table_iff_two : ∃ image, buildElf64ExeDebug [0x90, 0xC3] [] "source.aclm" [(1, 1), (0, 1)] 0 = .ok image ∧
    lineTableOf image = some [.row codeBase 1, .row (codeBase + 1) 1, .endSequence] := by
  obtain ⟨image, ok⟩ := (debug_packs [0x90, 0xC3] [] [(1, 1), (0, 1)] (List.cons_ne_nil _ _)).written
    (small_fits ([0x90, 0xC3], [], [(1, 1), (0, 1)]) (by simp))
  exact ⟨image, ok, (line_table_iff ok).mpr ⟨List.cons_ne_nil _ _, by decide⟩⟩

/-- The second line of a file is not found. -/
theorem line_table_wrong : ∃ image, buildElf64ExeDebug [0x90, 0xC3] [] "source.aclm" [(0, 1), (1, 2)] 0 = .ok image ∧
    ¬ LineTableRight image [(0, 1), (1, 2)] := by
  obtain ⟨image, ok⟩ := (debug_packs [0x90, 0xC3] [] [(0, 1), (1, 2)] (List.cons_ne_nil _ _)).written
    (small_fits ([0x90, 0xC3], [], [(0, 1), (1, 2)]) (by simp))
  obtain ⟨line, info, abbr, strings, found⟩ := sections_found ok
  refine ⟨image, ok, ?_⟩
  rw [LineTableRight, found.lineTableOf_eq, if_neg (List.cons_ne_nil _ _), table_lineProgram]
  decide

end Aclm.Image
