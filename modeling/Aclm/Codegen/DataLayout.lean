import Aclm.Codegen.Generate
import Aclm.Parser.Forms

/-! Where the declared data lie in the data section. -/

set_option autoImplicit false

namespace Aclm

open X64 (Byte)

/-! ### The declarations -/

/-- The operations that `data:` can be read as; an alignment is at least one. -/
def Op.Declares : Op → Prop
  | .dataAlign n => 0 < n
  | .dataAlloc .. | .dataBytes .. | .dataConst .. => True
  | _ => False

theorem Parse.dataForm_declares {self : Parser} {toks rest : List Tok} {op : Op}
    (read : dataForm self toks = .ok (op, rest)) : op.Declares := by
  unfold dataForm at read
  obtain ⟨what, toks, -, read⟩ := bind_ok.mp read
  split at read
  · -- An alignment below one is refused.
    obtain ⟨n, toks, -, read⟩ := bind_ok.mp read
    split at read
    · obtain ⟨_, _, wrong, -⟩ := bind_ok.mp read
      cases wrong
    · next valid =>
      cases read
      exact show (0 : Int) < n by omega
  obtain ⟨dest, toks, -, read⟩ := bind_ok.mp read
  obtain ⟨_, toks, -, read⟩ := bind_ok.mp read
  split at read
  · obtain ⟨k, toks, -, read⟩ := bind_ok.mp read
    split at read
    all_goals
      obtain ⟨size, toks, -, read⟩ := bind_ok.mp read
      cases read
      trivial
  split at read
  · obtain ⟨k, toks, -, read⟩ := bind_ok.mp read
    split at read
    all_goals
      obtain ⟨value, toks, -, read⟩ := bind_ok.mp read
      cases read
      trivial
  split at read
  · obtain ⟨n, toks, -, read⟩ := bind_ok.mp read
    obtain ⟨vals, toks, -, read⟩ := bind_ok.mp read
    split at read
    · obtain ⟨_, _, wrong, -⟩ := bind_ok.mp read
      cases wrong
    · cases read
      trivial
  · cases read

/-- The operations at the top level: functions keep theirs. -/
def topOps (stmts : List Stmt) : List Op :=
  stmts.filterMap fun
    | .op _ op => some op
    | .fnDef .. => none

namespace Codegen

/-- The name that a declaration gives to its bytes, and the bytes. -/
def datum (structs : Dict StructLayout) : Op → Option (String × List Byte)
  | .dataAlloc name size => match allocSize structs size with
    | .ok n => some (name, zeroBytes n)
    | .error _ => none
  | .dataBytes name values => some (name, values)
  | .dataConst name (.number value) => some (name, Encoder.u64 value)
  | .dataConst name (.string value) => some (name, Image.utf8 value ++ [0])
  | _ => none

def datumName : Op → Option String
  | .dataAlloc name _ | .dataBytes name _ | .dataConst name _ => some name
  | _ => none

/-- The size of an allocation is known and not negative. -/
def Sized (structs : Dict StructLayout) : Op → Prop
  | .dataAlloc _ size => ∃ n, allocSize structs size = .ok n ∧ 0 ≤ n
  | _ => True

theorem datum_name {structs : Dict StructLayout} {op : Op} {name : String} {bytes : List Byte}
    (found : datum structs op = some (name, bytes)) : datumName op = some name := by
  unfold datum at found
  split at found
  · split at found
    · cases found
      rfl
    · cases found
  all_goals
    cases found
    try rfl

/-! ### The loop -/

/-- The loop of `_collect_data`, with the offset behind it. -/
def collectAll : List Stmt → CodeGenerator → Int → Except PyErr (CodeGenerator × Int)
  | [], g, off => .ok (g, off)
  | .fnDef .. :: rest, g, off => collectAll rest g off
  | .op _ op :: rest, g, off => do
    let (g, off) ← collectDatum g off op
    collectAll rest g off

theorem collectData_eq (stmts : List Stmt) (g : CodeGenerator) (off : Int) :
    collectData stmts g off = (collectAll stmts g off).map Prod.fst := by
  induction stmts generalizing g off with
  | nil => rfl
  | cons s rest ih =>
    cases s with
    | fnDef line name args body locals => exact ih g off
    | op line op =>
      simp only [collectData, collectAll, bind, Except.bind]
      cases collectDatum g off op with
      | error e => rfl
      | ok out => exact ih out.1 out.2

theorem collectAll_append (before behind : List Stmt) (g : CodeGenerator) (off : Int) :
    collectAll (before ++ behind) g off = (do
      let (g, off) ← collectAll before g off
      collectAll behind g off) := by
  induction before generalizing g off with
  | nil => rfl
  | cons s rest ih =>
    cases s with
    | fnDef line name args body locals => exact ih g off
    | op line op =>
      simp only [List.cons_append, collectAll, bind, Except.bind]
      cases collectDatum g off op with
      | error e => rfl
      | ok out => exact ih out.1 out.2

/-- A region of the data section: the bytes stand at the offset. -/
def Holds (section' : List Byte) (off : Nat) (bytes : List Byte) : Prop :=
  off + bytes.length ≤ section'.length ∧ (section'.drop off).take bytes.length = bytes

theorem Holds.append {section' bytes : List Byte} {off : Nat} (holds : Holds section' off bytes) (more : List Byte) :
    Holds (section' ++ more) off bytes := by
  obtain ⟨inside, same⟩ := holds
  refine ⟨by rw [List.length_append]; omega, ?_⟩
  rw [List.drop_append_of_le_length (by omega), List.take_append_of_le_length (by rw [List.length_drop]; omega), same]

theorem Holds.last (before bytes : List Byte) : Holds (before ++ bytes) before.length bytes :=
  ⟨by rw [List.length_append], by rw [List.drop_left, List.take_length]⟩

/-- What one turn does when the offset is the number of the bytes: these grow by the datum, which gets that offset. -/
structure Turn (g g' : CodeGenerator) (op : Op) : Prop where
  structs : g'.structs = g.structs
  grown : ∃ added, g'.dataBytes = g.dataBytes ++ added
  placed : ∀ name bytes, datum g.structs op = some (name, bytes) →
    g'.dataBytes = g.dataBytes ++ bytes ∧ g'.dataLayout = g.dataLayout.set name g.dataBytes.length
  others : ∀ name, datumName op ≠ some name → g'.dataLayout.get? name = g.dataLayout.get? name

theorem Turn.of_placed {g g' : CodeGenerator} {op : Op} {name : String} {bytes : List Byte}
    (found : datum g.structs op = some (name, bytes)) (structs : g'.structs = g.structs)
    (grown : g'.dataBytes = g.dataBytes ++ bytes) (layout : g'.dataLayout = g.dataLayout.set name g.dataBytes.length) :
    Turn g g' op := by
  refine ⟨structs, ⟨bytes, grown⟩, fun name' bytes' found' => ?_, fun name' other => ?_⟩
  · rw [found] at found'
    cases found'
    exact ⟨grown, layout⟩
  · have apart : name ≠ name' := fun same => other (same ▸ datum_name found)
    rw [layout, Dict.get?_set, if_neg apart]

theorem collectDatum_turn {g : CodeGenerator} {op : Op} (declares : op.Declares) (sized : Sized g.structs op) :
    ∃ g', collectDatum g g.dataBytes.length op = .ok (g', g'.dataBytes.length) ∧ Turn g g' op := by
  cases op with
  | dataAlloc name size =>
    obtain ⟨n, known, positive⟩ := sized
    refine ⟨placeDatum g name g.dataBytes.length (zeroBytes n), ?_, .of_placed (by rw [datum, known]) rfl rfl rfl⟩
    have next : (g.dataBytes.length : Int) + n = (g.dataBytes ++ zeroBytes n).length := by
      simp only [List.length_append, zeroBytes, List.length_replicate]
      omega
    simp only [collectDatum, known, bind, Except.bind, next]
    rfl
  | dataAlign a =>
    have positive : 0 < a := declares
    have pad : 0 ≤ (a - (g.dataBytes.length : Int) % a) % a := Int.emod_nonneg _ (by omega)
    refine ⟨{ g with dataBytes := g.dataBytes ++ zeroBytes ((a - (g.dataBytes.length : Int) % a) % a) }, ?_, ⟨rfl, ⟨_, rfl⟩,
      fun name bytes found => (nomatch found), fun _ _ => rfl⟩⟩
    have next : (g.dataBytes.length : Int) + (a - (g.dataBytes.length : Int) % a) % a =
        (g.dataBytes ++ zeroBytes ((a - (g.dataBytes.length : Int) % a) % a)).length := by
      simp only [List.length_append, zeroBytes, List.length_replicate]
      omega
    simp only [collectDatum, next]
  | dataBytes name values =>
    refine ⟨{ placeDatum g name g.dataBytes.length values with stringLens := g.stringLens.set name values.length }, ?_,
      .of_placed rfl rfl rfl rfl⟩
    simp [collectDatum, placeDatum]
  | dataConst name value =>
    cases value with
    | number value =>
      refine ⟨{ placeDatum g name g.dataBytes.length (Encoder.u64 value) with dataConsts := g.dataConsts.set name value }, ?_,
        .of_placed rfl rfl rfl rfl⟩
      simp [collectDatum, placeDatum, Encoder.u64]
    | string value =>
      refine ⟨{ placeDatum g name g.dataBytes.length (Image.utf8 value ++ [0]) with
        stringLens := g.stringLens.set name ((Image.utf8 value ++ [0]).length - 1) }, ?_, .of_placed rfl rfl rfl rfl⟩
      simp [collectDatum, placeDatum]
  | _ => exact declares.elim

def datumNames (stmts : List Stmt) : List String := (topOps stmts).filterMap datumName

/-- What the whole loop does: every datum has a region behind what there was, and no two regions meet. -/
structure Turns (g g' : CodeGenerator) (stmts : List Stmt) : Prop where
  structs : g'.structs = g.structs
  grown : ∃ added, g'.dataBytes = g.dataBytes ++ added
  others : ∀ name ∉ datumNames stmts, g'.dataLayout.get? name = g.dataLayout.get? name
  placed : ∀ op ∈ topOps stmts, ∀ name bytes, datum g.structs op = some (name, bytes) →
    ∃ off : Nat, g.dataBytes.length ≤ off ∧ g'.dataLayout.get? name = some (off : Int) ∧ Holds g'.dataBytes off bytes
  disjoint : ∀ op ∈ topOps stmts, ∀ op' ∈ topOps stmts, ∀ name bytes name' bytes', datum g.structs op = some (name, bytes) →
    datum g.structs op' = some (name', bytes') → name ≠ name' → ∀ off off' : Int, g'.dataLayout.get? name = some off →
    g'.dataLayout.get? name' = some off' → off + bytes.length ≤ off' ∨ off' + bytes'.length ≤ off

theorem name_mem {stmts : List Stmt} {op : Op} {name : String} (member : op ∈ topOps stmts) (named : datumName op = some name) :
    name ∈ datumNames stmts := List.mem_filterMap.mpr ⟨op, member, named⟩

/-- The first turn and those that follow. -/
theorem Turns.cons {g h g' : CodeGenerator} {line : Int} {op : Op} {rest : List Stmt} (first : Turn g h op)
    (turns : Turns h g' rest) (fresh : ∀ name, datumName op = some name → name ∉ datumNames rest) :
    Turns g g' (.op line op :: rest) := by
  obtain ⟨added, grown⟩ := first.grown
  obtain ⟨added', grown'⟩ := turns.grown
  have longer : g.dataBytes.length ≤ h.dataBytes.length := by rw [grown, List.length_append]; omega
  -- The datum of this turn keeps its offset: no later turn has its name.
  have here {name : String} {bytes : List Byte} (found : datum g.structs op = some (name, bytes)) :
      g'.dataLayout.get? name = some (g.dataBytes.length : Int) ∧ h.dataBytes.length = g.dataBytes.length + bytes.length := by
    obtain ⟨bytesHere, layout⟩ := first.placed name bytes found
    refine ⟨?_, by rw [bytesHere, List.length_append]⟩
    rw [turns.others name (fresh name (datum_name found)), layout, Dict.get?_set, if_pos rfl]
  have later {other : Op} {name : String} {bytes : List Byte} (member : other ∈ topOps rest)
      (found : datum g.structs other = some (name, bytes)) :
      ∃ off : Nat, h.dataBytes.length ≤ off ∧ g'.dataLayout.get? name = some (off : Int) ∧ Holds g'.dataBytes off bytes :=
    turns.placed other member name bytes (by rw [first.structs]; exact found)
  refine ⟨turns.structs.trans first.structs, ⟨added ++ added', by rw [grown', grown, List.append_assoc]⟩,
    fun name outside => ?_, fun other member name bytes found => ?_, fun o member o' member' => ?_⟩
  · have parts : datumNames (.op line op :: rest) = (datumName op).toList ++ datumNames rest := by
      cases named : datumName op <;> simp [datumNames, topOps, named]
    rw [parts, List.mem_append, not_or] at outside
    exact (turns.others name outside.2).trans (first.others name fun named => outside.1 (by simp [named]))
  · rcases List.mem_cons.mp member with rfl | member
    · obtain ⟨bytesHere, -⟩ := first.placed name bytes found
      refine ⟨g.dataBytes.length, le_refl _, (here found).1, ?_⟩
      rw [grown', bytesHere]
      exact (Holds.last _ _).append _
    · obtain ⟨off, above, layout, holds⟩ := later member found
      exact ⟨off, longer.trans above, layout, holds⟩
  · intro name bytes name' bytes' found found' other off off' at_off at_off'
    rcases List.mem_cons.mp member with rfl | later₁ <;> rcases List.mem_cons.mp member' with rfl | later₂
    · rw [found] at found'
      cases found'
      exact absurd rfl other
    · obtain ⟨at_here, next⟩ := here found
      obtain ⟨off₂, above, at_later, -⟩ := later later₂ found'
      cases at_off.symm.trans at_here
      cases at_off'.symm.trans at_later
      exact .inl (by omega)
    · obtain ⟨at_here, next⟩ := here found'
      obtain ⟨off₂, above, at_later, -⟩ := later later₁ found
      cases at_off'.symm.trans at_here
      cases at_off.symm.trans at_later
      exact .inr (by omega)
    · refine turns.disjoint o later₁ o' later₂ name bytes name' bytes' ?_ ?_ other off off' at_off at_off' <;>
        rw [first.structs] <;> assumption

theorem collectAll_turns {stmts : List Stmt} {g : CodeGenerator} (declares : ∀ op ∈ topOps stmts, op.Declares)
    (sized : ∀ op ∈ topOps stmts, Sized g.structs op) (distinct : (datumNames stmts).Nodup) :
    ∃ g', collectAll stmts g g.dataBytes.length = .ok (g', g'.dataBytes.length) ∧ Turns g g' stmts := by
  induction stmts generalizing g with
  | nil =>
    exact ⟨g, rfl, rfl, ⟨[], by simp⟩, fun _ _ => rfl, fun op member => (nomatch member), fun op member => (nomatch member)⟩
  | cons s rest ih =>
    cases s with
    | fnDef line name args body locals =>
      obtain ⟨g', ran, turns⟩ := ih declares sized distinct
      exact ⟨g', ran, turns.structs, turns.grown, turns.others, turns.placed, turns.disjoint⟩
    | op line op =>
      obtain ⟨h, run, first⟩ := collectDatum_turn (declares op List.mem_cons_self) (sized op List.mem_cons_self)
      have parts : datumNames (.op line op :: rest) = (datumName op).toList ++ datumNames rest := by
        cases named : datumName op <;> simp [datumNames, topOps, named]
      rw [parts, List.nodup_append] at distinct
      obtain ⟨g', ran, turns⟩ := @ih h (fun other member => declares other (List.mem_cons_of_mem _ member))
        (fun other member => first.structs ▸ sized other (List.mem_cons_of_mem _ member)) distinct.2.1
      refine ⟨g', ?_, .cons first turns fun name named inRest => ?_⟩
      · simp only [collectAll, run, bind, Except.bind]
        exact ran
      · exact distinct.2.2 name (by simp [named]) name inRest rfl

/-! ### The whole section -/

/-- The declarations are laid out: the loop ends, in every turn of it the offset is the number of the bytes, every name has a
region with its bytes, and the regions of different names do not meet. -/
structure LaidOut (g g' : CodeGenerator) (stmts : List Stmt) : Prop where
  collected : collectData stmts g 0 = .ok g'
  level : ∀ before behind h off, stmts = before ++ behind → collectAll before g 0 = .ok (h, off) → off = h.dataBytes.length
  placed : ∀ op ∈ topOps stmts, ∀ name, datumName op = some name →
    ∃ bytes, datum g.structs op = some (name, bytes) ∧
      ∃ off : Nat, g'.dataLayout.get? name = some (off : Int) ∧ Holds g'.dataBytes off bytes
  disjoint : ∀ op ∈ topOps stmts, ∀ op' ∈ topOps stmts, ∀ name bytes name' bytes', datum g.structs op = some (name, bytes) →
    datum g.structs op' = some (name', bytes') → name ≠ name' → ∀ off off' : Int, g'.dataLayout.get? name = some off →
    g'.dataLayout.get? name' = some off' → off + bytes.length ≤ off' ∨ off' + bytes'.length ≤ off

theorem datum_of_sized {structs : Dict StructLayout} {op : Op} {name : String} (sized : Sized structs op)
    (named : datumName op = some name) : ∃ bytes, datum structs op = some (name, bytes) := by
  cases op with
  | dataAlloc name' size =>
    obtain ⟨n, known, -⟩ := sized
    cases named
    exact ⟨zeroBytes n, by rw [datum, known]⟩
  | dataBytes name' values => cases named; exact ⟨_, rfl⟩
  | dataConst name' value => cases named; cases value <;> exact ⟨_, rfl⟩
  | _ => cases named

theorem topOps_split {stmts : List Stmt} {op : Op} (member : op ∈ topOps stmts) :
    ∃ before line behind, stmts = before ++ .op line op :: behind := by
  obtain ⟨s, inside, isOp⟩ := List.mem_filterMap.mp member
  obtain ⟨before, behind, rfl⟩ := List.append_of_mem inside
  cases s with
  | op line op' =>
    cases isOp
    exact ⟨before, line, behind, rfl⟩
  | fnDef line name args body locals => cases isOp

/-- Structs are collected before the data. -/
theorem collectDatum_structs {g g' : CodeGenerator} {off off' : Int} {op : Op}
    (run : collectDatum g off op = .ok (g', off')) : g'.structs = g.structs := by
  cases op with
  | dataAlloc name size =>
    simp only [collectDatum, bind, Except.bind] at run
    split at run
    · cases run
    · cases run
      rfl
  | dataConst name value => cases value <;> cases run <;> rfl
  | _ => cases run; rfl

theorem collectAll_structs {stmts : List Stmt} {g g' : CodeGenerator} {off off' : Int}
    (run : collectAll stmts g off = .ok (g', off')) : g'.structs = g.structs := by
  induction stmts generalizing g off with
  | nil => cases run; rfl
  | cons s rest ih =>
    cases s with
    | fnDef line name args body locals => exact ih run
    | op line op =>
      simp only [collectAll, bind, Except.bind] at run
      cases first : collectDatum g off op with
      | error e => rw [first] at run; cases run
      | ok out =>
        rw [first] at run
        exact (ih run).trans (collectDatum_structs (show collectDatum g off op = .ok (out.1, out.2) from first))

/-- A list of declarations is laid out exactly when every allocation has a known size that is not negative. -/
theorem data_layout {g : CodeGenerator} (noBytes : g.dataBytes = []) {stmts : List Stmt}
    (accepted : ∀ op ∈ topOps stmts, ∃ (self : Parser) (toks rest : List Tok), Parse.dataForm self toks = .ok (op, rest))
    (distinct : (datumNames stmts).Nodup) :
    (∃ g', LaidOut g g' stmts) ↔ ∀ op ∈ topOps stmts, Sized g.structs op := by
  have declares (op : Op) (member : op ∈ topOps stmts) : op.Declares := by
    obtain ⟨self, toks, rest, read⟩ := accepted op member
    exact Parse.dataForm_declares read
  have start : (g.dataBytes.length : Int) = 0 := by rw [noBytes]; rfl
  constructor
  · rintro ⟨g', laid⟩ op member
    cases op with
    | dataAlloc name size =>
      -- The offset is the length of the bytes before and after the statement, so the size is not negative.
      obtain ⟨before, line, behind, rfl⟩ := topOps_split member
      have whole := laid.collected
      rw [collectData_eq, collectAll_append] at whole
      cases prefix' : collectAll before g 0 with
      | error e => rw [prefix'] at whole; cases whole
      | ok out =>
        obtain ⟨h, off⟩ := out
        have same := collectAll_structs prefix'
        have levelBefore := laid.level before _ h off rfl prefix'
        rw [prefix'] at whole
        simp only [bind, Except.bind, collectAll, collectDatum] at whole
        cases known : allocSize h.structs size with
        | error e => rw [known] at whole; cases whole
        | ok n =>
          refine ⟨n, same ▸ known, ?_⟩
          have next : collectAll (before ++ [.op line (.dataAlloc name size)]) g 0 =
              .ok (placeDatum h name off (zeroBytes n), off + n) := by
            rw [collectAll_append, prefix']
            simp only [bind, Except.bind, collectAll, collectDatum, known]
          have levelNext := laid.level _ behind _ _ (by simp) next
          simp only [placeDatum, zeroBytes, List.length_append, List.length_replicate] at levelNext
          omega
    | _ => trivial
  · intro sized
    obtain ⟨g', run, turns⟩ := collectAll_turns declares sized distinct
    rw [start] at run
    refine ⟨g', by rw [collectData_eq, run]; rfl, fun before behind h off split ran => ?_, fun op member name named => ?_,
      turns.disjoint⟩
    · subst split
      have inBefore {op : Op} (member : op ∈ topOps before) : op ∈ topOps (before ++ behind) := by
        rw [topOps, List.filterMap_append]
        exact List.mem_append_left _ member
      have fewer : (datumNames before).Nodup := by
        rw [datumNames, topOps, List.filterMap_append, List.filterMap_append] at distinct
        exact (List.nodup_append.mp distinct).1
      obtain ⟨h', ran', -⟩ := collectAll_turns (fun op member => declares op (inBefore member))
        (fun op member => sized op (inBefore member)) fewer
      rw [start, ran] at ran'
      cases ran'
      rfl
    · obtain ⟨bytes, found⟩ := datum_of_sized (sized op member) named
      obtain ⟨off, -, layout, holds⟩ := turns.placed op member name bytes found
      exact ⟨bytes, found, off, layout, holds⟩

/-- Tokens in one place, up to the end of the line. -/
def dataToks (words : List (T × String)) : List Tok := (words ++ [(T.newline, "\\n")]).map fun w => ⟨w.1, w.2, 1, 1⟩

/-- Three bytes, an alignment to eight, the text "hi" and the number 258. -/
def someData : List Stmt :=
  [.op 1 (.dataAlloc "a" (.bytes 3)), .op 2 (.dataAlign 8), .op 3 (.dataConst "s" (.string "hi")),
   .op 4 (.dataConst "n" (.number 258))]

theorem data_layout_some : ∃ g', LaidOut (.new false) g' someData := by
  refine (data_layout rfl (fun op member => ?_) (by decide)).mpr fun op member => ?_
  · simp only [someData, topOps, List.filterMap_cons, List.filterMap_nil, List.mem_cons, List.not_mem_nil, or_false] at member
    rcases member with rfl | rfl | rfl | rfl
    · exact ⟨⟨"f", .ascii⟩, dataToks [(.ident, "alloc"), (.ident, "a"), (.eq, "="), (.number, "3")], _, rfl⟩
    · exact ⟨⟨"f", .ascii⟩, dataToks [(.ident, "align"), (.number, "8")], _, rfl⟩
    · exact ⟨⟨"f", .ascii⟩, dataToks [(.ident, "const"), (.ident, "s"), (.eq, "="), (.string, "hi")], _, rfl⟩
    · exact ⟨⟨"f", .ascii⟩, dataToks [(.ident, "const"), (.ident, "n"), (.eq, "="), (.number, "258")], _, rfl⟩
  · simp only [someData, topOps, List.filterMap_cons, List.filterMap_nil, List.mem_cons, List.not_mem_nil, or_false] at member
    rcases member with rfl | rfl | rfl | rfl
    · exact ⟨3, rfl, by decide⟩
    · trivial
    · trivial
    · trivial

/-- An allocation of minus two bytes lets the next datum begin inside the one before. -/
theorem data_layout_negative : ¬∀ (g : CodeGenerator) (stmts : List Stmt), g.dataBytes = [] →
    (∀ op ∈ topOps stmts, ∃ (self : Parser) (toks rest : List Tok), Parse.dataForm self toks = .ok (op, rest)) →
    (datumNames stmts).Nodup → ∃ g', LaidOut g g' stmts := by
  intro all
  let stmts : List Stmt := [.op 1 (.dataAlloc "a" (.bytes 4)), .op 2 (.dataAlloc "b" (.bytes (-2))),
    .op 3 (.dataConst "c" (.number 1))]
  obtain ⟨g', laid⟩ := all (.new false) stmts rfl (fun op member => by
    simp only [stmts, topOps, List.filterMap_cons, List.filterMap_nil, List.mem_cons, List.not_mem_nil, or_false] at member
    rcases member with rfl | rfl | rfl
    · exact ⟨⟨"f", .ascii⟩, dataToks [(.ident, "alloc"), (.ident, "a"), (.eq, "="), (.number, "4")], _, rfl⟩
    · exact ⟨⟨"f", .ascii⟩, dataToks [(.ident, "alloc"), (.ident, "b"), (.eq, "="), (.number, "-2")], _, rfl⟩
    · exact ⟨⟨"f", .ascii⟩, dataToks [(.ident, "const"), (.ident, "c"), (.eq, "="), (.number, "1")], _, rfl⟩) (by decide)
  have collected := laid.collected
  cases collected
  have apart := laid.disjoint (.dataAlloc "a" (.bytes 4)) (by simp [stmts, topOps]) (.dataConst "c" (.number 1))
    (by simp [stmts, topOps]) "a" [0, 0, 0, 0] "c" [1, 0, 0, 0, 0, 0, 0, 0] rfl rfl (by decide) 0 2 rfl rfl
  simp at apart

end Codegen

end Aclm
