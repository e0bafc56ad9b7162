import Aclm.X64.Word

/-! A table of at most eight files with short names: what storing a file and looking one up mean, by themselves. -/

set_option autoImplicit false

namespace Aclm

open X64 (Byte Word)

/-- Bytes without a NUL. -/
abbrev FileName := {name : List Byte // (0 : Byte) ∉ name}

def FileName.none : FileName := ⟨[], List.not_mem_nil⟩

/-- The first fifteen bytes. -/
def FileName.cut (name : FileName) : FileName :=
  ⟨name.1.take 15, fun member => name.2 (List.mem_of_mem_take member)⟩

structure File where
  name : FileName
  data : Word
  length : Word
  nonempty : name.1 ≠ []
  short : name.1.length ≤ 15

/-- A file under a name that is cut. -/
def File.cut (name : FileName) (nonempty : name.1 ≠ []) (data length : Word) : File where
  name := name.cut
  data := data
  length := length
  nonempty none := nonempty ((List.take_eq_nil_iff.mp none).resolve_left (by decide))
  short := List.length_take_le 15 name.1

abbrev FileTable := {files : List File // files.length ≤ 8}

namespace FileTable

variable (t : FileTable) (name other : FileName) (data length : Word)

def empty : FileTable := ⟨[], by decide⟩

/-- A file with a name goes behind the others if there is room. -/
def put : FileTable :=
  if room : name.1 ≠ [] ∧ t.1.length < 8 then
    ⟨t.1 ++ [.cut name room.1 data length], by rw [List.length_append, List.length_singleton]; exact room.2⟩
  else t

/-- The name in a slot, if there is a file. -/
def nameAt (i : Nat) : FileName := t.1[i]?.elim .none File.name

/-- The data of the first file of that name. -/
def get : Word := ((t.1.find? fun f => f.name = name).map File.data).getD 0

variable {t name other data length}

theorem cut_short (short : name.1.length ≤ 15) : name.cut = name := Subtype.ext (List.take_of_length_le short)

theorem nameAt_short (i : Nat) : (t.nameAt i).1.length ≤ 15 := by
  unfold nameAt
  cases t.1[i]? with
  | none => exact Nat.zero_le _
  | some f => exact f.short

theorem get_empty : get empty name = 0 := rfl

/-- A name that is taken keeps its data. -/
theorem get_put_taken (taken : ∃ f ∈ t.1, f.name = name) : (t.put other data length).get name = t.get name := by
  obtain ⟨f, member, same⟩ := taken
  unfold put
  split
  · have found : (t.1.find? fun f => f.name = name).isSome = true :=
      List.find?_isSome.mpr ⟨f, member, decide_eq_true same⟩
    obtain ⟨f, found⟩ := Option.isSome_iff_exists.mp found
    simp only [get, List.find?_append, found, Option.some_or]
  · rfl

/-- A new name has the data it is stored with. -/
theorem get_put_new (free : ∀ f ∈ t.1, f.name ≠ name) (nonempty : name.1 ≠ []) (short : name.1.length ≤ 15)
    (room : t.1.length < 8) : (t.put name data length).get name = data := by
  have none : (t.1.find? fun f => f.name = name) = none :=
    List.find?_eq_none.mpr fun f member same => free f member (of_decide_eq_true same)
  simp only [put, dif_pos (And.intro nonempty room), get, List.find?_append, none, Option.none_or]
  simp [File.cut, cut_short short]

/-- Other names keep their data. -/
theorem get_put_other (differ : other.cut ≠ name) : (t.put other data length).get name = t.get name := by
  unfold put
  split
  · simp only [get, List.find?_append]
    simp [File.cut, differ]
  · rfl

/-! ### Histories -/

/-- A file as it is handed over. -/
structure Put where
  name : FileName
  data : Word
  length : Word

/-- The table after the files of a history, the first one first. -/
def ofHistory (history : List Put) : FileTable :=
  history.foldl (fun t p => t.put p.name p.data p.length) empty

/-- What a history leaves in the table: the first eight files that have a name. -/
def kept (history : List Put) : List Put := (history.filter fun p => p.name.1 ≠ []).take 8

theorem ofHistory_concat (history : List Put) (p : Put) :
    ofHistory (history ++ [p]) = (ofHistory history).put p.name p.data p.length := by
  rw [ofHistory, List.foldl_append]
  rfl

theorem ofHistory_files (history : List Put) :
    (ofHistory history).1.map (fun f => (f.name, f.data)) = (kept history).map fun p => (p.name.cut, p.data) := by
  induction history using List.reverseRecOn with
  | nil => rfl
  | append_singleton history p ih =>
    have length : (ofHistory history).1.length = (kept history).length := by simpa using congrArg List.length ih
    rw [ofHistory_concat]
    by_cases nonempty : p.name.1 = []
    · -- Without a name nothing is stored.
      have same : (ofHistory history).put p.name p.data p.length = ofHistory history := dif_neg fun both => both.1 nonempty
      rw [same, ih]
      simp [kept, nonempty]
    · have shape : kept (history ++ [p]) = kept history ++ [p].take (8 - (history.filter fun p => p.name.1 ≠ []).length) := by
        rw [kept, List.filter_append, List.take_append]
        simp [kept, nonempty]
      rw [shape]
      by_cases room : (ofHistory history).1.length < 8
      · have files : ((ofHistory history).put p.name p.data p.length).1 = (ofHistory history).1 ++ [.cut p.name nonempty p.data p.length] :=
          congrArg Subtype.val (dif_pos (And.intro nonempty room))
        have more : (history.filter fun p => p.name.1 ≠ []).length < 8 := by
          rw [length, kept, List.length_take] at room
          omega
        rw [files, List.map_append, ih, List.take_of_length_le (by rw [List.length_singleton]; omega)]
        simp [File.cut]
      · have same : (ofHistory history).put p.name p.data p.length = ofHistory history := dif_neg fun both => room both.2
        have all : 8 ≤ (history.filter fun p => p.name.1 ≠ []).length := by
          rw [length, kept, List.length_take] at room
          omega
        rw [same, ih, Nat.sub_eq_zero_of_le all, List.take_zero, List.append_nil]

/-- The first file of that name that was kept is the one that is found. -/
theorem get_ofHistory (history : List Put) (name : FileName) :
    (ofHistory history).get name = (((kept history).find? fun p => p.name.cut = name).map Put.data).getD 0 := by
  have files := congrArg (fun l => ((l.find? fun f => f.1 = name).map Prod.snd).getD 0) (ofHistory_files history)
  simp only [List.find?_map, Option.map_map] at files
  exact files

end FileTable

end Aclm
