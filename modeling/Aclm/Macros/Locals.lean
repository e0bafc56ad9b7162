import Aclm.Compiler
import Aclm.Macros.Trace

/-! The final names of local labels: those of macro bodies are kept apart call by call, those of arguments are lost. -/

set_option autoImplicit false

namespace Aclm.Macros

open Text
open Compiler (Locals renameLocal expandLocalLabels)

variable {U : CharClasses} {filename : String} {macros : Dict Macro}

/-! ### Lines end -/

/-- The last character of the line is one at which a line ends. -/
def Ended (line : Text) : Prop := ∃ s c, line = s ++ [c] ∧ lineBreak c = true

/-- The lines of a macro's body are ended, and no name of a parameter has a line break in it. -/
structure Sound (target : Macro) : Prop where
  lines {line : Text} (member : line ∈ target.body) : Ended line
  names {name : Text} (member : name ∈ target.args) : ∀ c ∈ name, lineBreak c = false

theorem mem_dropLast_cons {line first : Text} {rest : List Text} (member : line ∈ (first :: rest).dropLast) :
    rest ≠ [] ∧ (line = first ∨ line ∈ rest.dropLast) := by
  cases rest with
  | nil => cases member
  | cons second rest => exact ⟨List.cons_ne_nil _ _, List.mem_cons.mp member⟩

theorem mem_dropLast_tail {line : Text} (first : Text) {rest : List Text} (member : line ∈ rest.dropLast) :
    line ∈ (first :: rest).dropLast := by
  cases rest with
  | nil => cases member
  | cons second rest => exact List.mem_cons_of_mem _ member

theorem splitLines_ended (s : Text) {line : Text} (member : line ∈ (splitLines s).dropLast) : Ended line := by
  have all (begun : Text) : ∀ line ∈ (splitLinesFrom begun s).dropLast, Ended line := by
    clear member
    induction begun, s using splitLinesFrom.induct with
    | case1 => exact fun line member => by cases member
    | case2 begun some =>
      intro line member
      rw [splitLinesFrom, if_neg some] at member
      cases member
    | case3 begun s ih =>
      intro line member
      rw [splitLinesFrom] at member
      rcases (mem_dropLast_cons member).2 with rfl | later
      · exact ⟨begun ++ ['\r'], '\n', by rw [List.append_assoc]; rfl, rfl⟩
      · exact ih line later
    | case4 begun c s crlf ends ih =>
      intro line member
      rw [splitLinesFrom, if_pos ends] at member
      · rcases (mem_dropLast_cons member).2 with rfl | later
        · exact ⟨begun, c, rfl, ends⟩
        · exact ih line later
      · exact crlf
    | case5 begun c s crlf more ih =>
      intro line member
      rw [splitLinesFrom, if_neg more] at member
      · exact ih line member
      · exact crlf
  exact all [] line member

theorem pieces_plain {separator : Char → Bool} {s piece : Text} (member : piece ∈ pieces separator s) :
    ∀ c ∈ piece, separator c = false := by
  have all : ∀ piece ∈ s.splitOnP separator, ∀ c ∈ piece, separator c = false := by
    clear member
    induction s with
    | nil =>
      intro piece member
      rw [List.splitOnP_nil] at member
      rw [List.mem_singleton.mp member]
      exact fun c member => by cases member
    | cons x s ih =>
      intro piece member
      rw [List.splitOnP_cons_eq_if_modifyHead] at member
      split at member
      · rcases List.mem_cons.mp member with rfl | later
        · exact fun c member => by cases member
        · exact ih piece later
      · next plain =>
        cases shape : s.splitOnP separator with
        | nil => exact absurd shape (List.splitOnP_ne_nil _ _)
        | cons first rest =>
          rw [shape] at member ih
          rcases List.mem_cons.mp member with rfl | later
          · intro c inside
            rcases List.mem_cons.mp inside with rfl | inside
            · exact Bool.eq_false_iff.mpr plain
            · exact ih first List.mem_cons_self c inside
          · exact ih piece (List.mem_cons_of_mem _ later)
  exact all piece (List.mem_of_mem_filter member)

theorem lineBreak_space {c : Char} (ends : lineBreak c = true) : isSpace c = true := by
  simp only [lineBreak, isSpace, Bool.or_eq_true, Bool.and_eq_true, decide_eq_true_eq, beq_iff_eq] at ends ⊢
  omega

theorem lineBreak_plain {c : Char} (ends : lineBreak c = true) : word U c = false ∧ c ≠ '@' ∧ c ≠ '~' ∧ c ≠ '$' := by
  refine ⟨?_, ?_, ?_, ?_⟩
  · rw [word, U.space_alnum c (lineBreak_space ends), Bool.false_or]
    refine beq_false_of_ne ?_
    rintro rfl
    cases ends
  · rintro rfl
    cases ends
  · rintro rfl
    cases ends
  · rintro rfl
    cases ends

theorem macroStart_names {line : Text} {name : String} {args : List Text} (found : macroStart U line = some (name, args)) :
    ∀ arg ∈ args, ∀ c ∈ arg, lineBreak c = false := by
  unfold macroStart at found
  split at found
  · obtain ⟨⟨name', rest⟩, -, same⟩ := Option.map_eq_some_iff.mp found
    cases same
    intro arg member c inside
    have plain := pieces_plain member c inside
    cases ends : lineBreak c with
    | false => rfl
    | true =>
      rw [lineBreak_space ends] at plain
      cases plain
  · cases found

/-- All macros that are read are sound. -/
theorem parseDefs_sound {n : Nat} {opened : Option Opened} {known : Dict Macro} {lines rest : List Text}
    (read : parseDefs U filename n opened known lines = .ok (macros, rest))
    (ended : ∀ line ∈ lines.dropLast, Ended line) (old : ∀ name target, known.get? name = some target → Sound target)
    (current : ∀ d, opened = some d → Sound d.target) : ∀ name target, macros.get? name = some target → Sound target := by
  -- On the lines that are left, with the definition that is open.
  induction n, opened, known, lines using parseDefs.induct U generalizing rest with
  | case1 n known =>
    cases read
    exact old
  | case2 n d known => cases read
  | case3 n d known line lines close ih =>
    rw [parseDefs, if_pos close] at read
    refine ih read (fun line member => ended line ?_) (fun name target found => ?_) (fun d shape => by cases shape)
    · exact mem_dropLast_tail _ member
    · rw [Dict.get?_set] at found
      split at found
      · cases found
        exact current d rfl
      · exact old name target found
  | case4 n d known line lines more ih =>
    rw [parseDefs, if_neg more] at read
    refine ih read (fun line member => ended line (mem_dropLast_tail _ member)) old ?_
    rintro d' same
    cases same
    have sound := current d rfl
    refine ⟨fun {other} member => ?_, sound.names⟩
    rcases List.mem_append.mp member with inside | last
    · exact sound.lines inside
    · rw [List.mem_singleton.mp last]
      -- The last line may lack its newline, but a definition that is open there is an error.
      cases lines with
      | nil => cases read
      | cons next lines => exact ended line List.mem_cons_self
  | case5 n known line lines name args start ih =>
    rw [parseDefs, start] at read
    refine ih read (fun line member => ended line (mem_dropLast_tail _ member)) old ?_
    rintro d same
    cases same
    refine ⟨fun {line} member => ?_, fun {name} member => macroStart_names start name member⟩
    cases member
  | case6 n known line lines none ih =>
    rw [parseDefs, none] at read
    obtain ⟨⟨macros', out⟩, inner, same⟩ := bind_eq_ok.mp read
    cases same
    exact ih inner (fun line member => ended line (mem_dropLast_tail _ member)) old (fun d shape => by cases shape)

theorem replaceMarkedFrom_end {old : Text} {new : Marked} {e : Char × Origin} (absent : e.1 ∉ old) (some : old ≠ [])
    (k : Nat) (m : Marked) (inside : k ≤ m.length) :
    replaceMarkedFrom old new k (m ++ [e]) = replaceMarkedFrom old new k m ++ [e] := by
  have shorter (s : Text) : old <+: s ++ [e.1] ↔ old <+: s := by
    rw [List.prefix_concat_iff]
    refine or_iff_right fun same => absent ?_
    rw [same]
    exact List.mem_append_right _ List.mem_cons_self
  induction m generalizing k with
  | nil =>
    obtain rfl : k = 0 := Nat.le_zero.mp inside
    have no : ¬ old.isPrefixOf (Marked.text [e]) = true := by
      rw [List.isPrefixOf_iff_prefix]
      exact fun hit => some (List.prefix_nil.mp ((shorter []).mp hit))
    have single : replaceMarkedFrom old new 0 [e] = [e] := by rw [replaceMarkedFrom, if_neg no, replaceMarkedFrom]
    exact single
  | cons c m ih => cases k with
    | succ k => exact ih k (Nat.le_of_succ_le_succ inside)
    | zero =>
      have same : old.isPrefixOf (Marked.text (c :: (m ++ [e]))) = old.isPrefixOf (Marked.text (c :: m)) := by
        rw [Bool.eq_iff_iff, List.isPrefixOf_iff_prefix, List.isPrefixOf_iff_prefix, ← List.cons_append, text_append]
        exact shorter _
      rw [List.cons_append, replaceMarkedFrom, replaceMarkedFrom, same]
      split
      · next hit =>
        have room := (List.isPrefixOf_iff_prefix.mp hit).length_le
        rw [Marked.text, List.length_map, List.length_cons] at room
        rw [ih _ (by omega), List.append_assoc]
      · rw [ih 0 (Nat.zero_le _), List.cons_append]

theorem substituteMarked_end {d : Dict Text} {c : Char} (absent : ∀ entry ∈ d, c ∉ entry.1.toList) (dollar : c ≠ '$')
    (s : Text) : ∃ m, substituteMarked d (s ++ [c]) = m ++ [(c, .body)] := by
  have all (m : Marked) : ∃ m', d.foldl (fun m entry => replaceMarkedFrom ('$' :: entry.1.toList)
      (mark (.value entry.1) entry.2) 0 m) (m ++ [(c, .body)]) = m' ++ [(c, .body)] := by
    induction d generalizing m with
    | nil => exact ⟨m, rfl⟩
    | cons entry d ih =>
      have other : c ∉ '$' :: entry.1.toList := fun member =>
        (List.mem_cons.mp member).elim dollar (absent entry List.mem_cons_self)
      rw [List.foldl_cons, replaceMarkedFrom_end other (List.cons_ne_nil _ _) 0 m (Nat.zero_le _)]
      exact ih (fun entry member => absent entry (List.mem_cons_of_mem _ member)) _
  have start : mark .body (s ++ [c]) = mark .body s ++ [(c, .body)] := List.map_append
  rw [substituteMarked, start]
  exact all _

theorem mapping_keys {args vals : List Text} : ∀ entry ∈ mapping args vals, entry.1.toList ∈ args := by
  have all (pairs : List (Text × Text)) (d : Dict Text) (names : ∀ pair ∈ pairs, pair.1 ∈ args)
      (known : ∀ key ∈ d.keys, key.toList ∈ args) :
      ∀ key ∈ (pairs.foldl (fun d p => d.set (.ofList p.1) p.2) d).keys, key.toList ∈ args := by
    induction pairs generalizing d with
    | nil => exact known
    | cons pair pairs ih =>
      refine ih _ (fun pair member => names pair (List.mem_cons_of_mem _ member)) fun key member => ?_
      rcases Dict.mem_keys_set member with rfl | old
      · rw [String.toList_ofList]
        exact names pair List.mem_cons_self
      · exact known key old
  intro entry member
  exact all _ [] (fun pair inside => (List.of_mem_zip inside).1) (fun key none => by cases none) _ (List.mem_map_of_mem member)

/-- A line that was made ends as the line of the body does. -/
theorem Birth.marked_end {b : Birth} (sound : Sound b.call.target) (inside : b.line ∈ b.call.target.body) :
    ∃ m c, b.marked = m ++ [(c, .body)] ∧ lineBreak c = true := by
  obtain ⟨s, c, shape, ends⟩ := sound.lines inside
  rw [Birth.marked, shape]
  cases b.call.vals with
  | none => exact ⟨mark .body s, c, List.map_append, ends⟩
  | some vals =>
    have absent : ∀ entry ∈ mapping b.call.target.args vals, c ∉ entry.1.toList := by
      intro entry member inside
      rw [sound.names (mapping_keys entry member) c inside] at ends
      cases ends
    obtain ⟨m, same⟩ := substituteMarked_end absent (lineBreak_plain (U := CharClasses.ascii) ends).2.2.2 s
    exact ⟨m, c, same, ends⟩

/-! ### Final names -/

/-- Every name that is kept was made for its label. -/
def Formed (known : Locals) : Prop :=
  ∀ name label, known.mapping.get? name = some label → ∃ k : Nat, label = s!"__loc{k}_{name}"

theorem renameLocal_found (known : Locals) (name : String) :
    ∃ label, (renameLocal known name).1 = '~' :: label.toList ∧
      (renameLocal known name).2.mapping.get? name = some label := by
  unfold renameLocal
  cases found : known.mapping.get? name with
  | some label => exact ⟨label, rfl, found⟩
  | none => exact ⟨_, rfl, by rw [Dict.get?_set, if_pos rfl]⟩

theorem renameLocal_keeps {known : Locals} {name label : String} (found : known.mapping.get? name = some label)
    (other : String) : (renameLocal known other).2.mapping.get? name = some label := by
  unfold renameLocal
  cases old : known.mapping.get? other with
  | some _ => exact found
  | none =>
    have different : other ≠ name := by
      rintro rfl
      cases found.symm.trans old
    exact (Dict.get?_set ..).trans ((if_neg different).trans found)

theorem Formed.renameLocal {known : Locals} (formed : Formed known) (name : String) :
    Formed (renameLocal known name).2 := by
  unfold Compiler.renameLocal
  cases old : known.mapping.get? name with
  | some _ => exact formed
  | none =>
    intro other label found
    change (known.mapping.set name _).get? other = some label at found
    rw [Dict.get?_set] at found
    split at found
    · next same =>
      cases found
      exact ⟨known.counter + 1, by rw [same]⟩
    · exact formed other label found

theorem keptAfter_keeps {known : Locals} {name label : String} (found : known.mapping.get? name = some label)
    (cs : List Cut) : (keptAfter renameLocal known cs).mapping.get? name = some label := by
  induction cs generalizing known with
  | nil => exact found
  | cons c cs ih => cases c with
    | char c => exact ih found
    | label other => exact ih (renameLocal_keeps found other)

theorem Formed.keptAfter {known : Locals} (formed : Formed known) (cs : List Cut) :
    Formed (keptAfter Compiler.renameLocal known cs) := by
  induction cs generalizing known with
  | nil => exact formed
  | cons c cs ih => cases c with
    | char c => exact ih formed
    | label other => exact ih (formed.renameLocal other)

theorem formed_empty : Formed ⟨0, []⟩ := fun _ _ found => by cases found

/-- What is written for a label with this name behind the text. -/
def labelBehind (U : CharClasses) (front : Text) (name : String) : Text :=
  (renameLocal (keptAfter renameLocal ⟨0, []⟩ (cut U front)) name).1

theorem expandLocalLabels_at {name : String} (identifier : IsIdent U name) (front : Text) {behind : Text}
    (ends : ¬ startsWord U behind) :
    ∃ rest, expandLocalLabels U (front ++ ('~' :: '@' :: name.toList ++ behind)) =
      expandLocalLabels U front ++ (labelBehind U front name ++ rest) := by
  rw [expandLocalLabels, expandLocalLabels, subLabels_eq, subLabels_eq, cut_label identifier front ends, subCuts_append]
  exact ⟨_, rfl⟩

theorem loc_toList (k : Nat) (name : String) :
    s!"__loc{k}_{name}".toList = "__loc".toList ++ (Nat.toDigits 10 k ++ '_' :: name.toList) := by
  change ((("__loc" ++ Nat.repr k) ++ "_") ++ name : String).toList = _
  rw [String.toList_append, String.toList_append, String.toList_append, Nat.toList_repr]
  simp only [List.append_assoc]
  rfl

theorem append_first {c : Char} {s s' t t' : Text} (first : c ∉ s) (first' : c ∉ s') (same : s ++ c :: t = s' ++ c :: t') :
    s = s' ∧ t = t' := by
  have back := congrArg List.reverse same
  simp only [List.reverse_append, List.reverse_cons, List.append_assoc, List.singleton_append] at back
  obtain ⟨tails, heads⟩ := append_last (mt List.mem_reverse.mp first) (mt List.mem_reverse.mp first') back
  exact ⟨List.reverse_injective heads, List.reverse_injective tails⟩

/-- Two names are written as the same label only if they are the same. -/
theorem loc_injective {j k : Nat} {name other : String} (same : s!"__loc{j}_{name}" = s!"__loc{k}_{other}") :
    name = other := by
  have letters := congrArg String.toList same
  rw [loc_toList, loc_toList] at letters
  have plain (n : Nat) : '_' ∉ Nat.toDigits 10 n := fun member => absurd (toDigits_digits n _ member) (by decide)
  exact String.toList_inj.mp (append_first (plain j) (plain k) (List.append_cancel_left letters)).2

theorem labelBehind_formed (U : CharClasses) (front : Text) (name : String) :
    ∃ k : Nat, labelBehind U front name = '~' :: s!"__loc{k}_{name}".toList := by
  obtain ⟨label, written, found⟩ := renameLocal_found (keptAfter renameLocal ⟨0, []⟩ (cut U front)) name
  obtain ⟨k, rfl⟩ := (formed_empty.keptAfter (cut U front)).renameLocal name name label found
  exact ⟨k, written⟩

theorem labelBehind_ne {front front' : Text} {name name' : String} (other : name ≠ name') :
    labelBehind U front name ≠ labelBehind U front' name' := by
  intro same
  obtain ⟨k, written⟩ := labelBehind_formed U front name
  obtain ⟨k', written'⟩ := labelBehind_formed U front' name'
  rw [written, written'] at same
  exact other (loc_injective (String.toList_inj.mp (List.cons.inj same).2))

/-- Wherever a name stands in one text, the same label is written for it. -/
theorem labelBehind_same {name : String} (identifier : IsIdent U name) {whole front front' behind behind' : Text}
    (split : whole = front ++ ('~' :: '@' :: name.toList ++ behind)) (ends : ¬ startsWord U behind)
    (split' : whole = front' ++ ('~' :: '@' :: name.toList ++ behind')) (ends' : ¬ startsWord U behind') :
    labelBehind U front name = labelBehind U front' name := by
  have known {front behind : Text} (split : whole = front ++ ('~' :: '@' :: name.toList ++ behind))
      (ends : ¬ startsWord U behind) : ∃ label, labelBehind U front name = '~' :: label.toList ∧
        (keptAfter renameLocal ⟨0, []⟩ (cut U whole)).mapping.get? name = some label := by
    obtain ⟨label, written, found⟩ := renameLocal_found (keptAfter renameLocal ⟨0, []⟩ (cut U front)) name
    refine ⟨label, written, ?_⟩
    rw [split, cut_label identifier front ends, keptAfter_append]
    exact keptAfter_keeps found (cut U behind)
  obtain ⟨label, written, found⟩ := known split ends
  obtain ⟨label', written', found'⟩ := known split' ends'
  cases found.symm.trans found'
  rw [written, written']

/-! ### Labels of bodies -/

/-- A local label in the text that comes out, all characters of which come from the body of a macro. -/
structure BodyLabel (ts : List (Traced U)) where
  front : List (Traced U)
  birth : Birth
  back : List (Traced U)
  lines : ts = front ++ .made birth :: back
  before : Marked
  name : String
  after : Marked
  chars : birth.marked = before ++ (mark .body ('~' :: '@' :: name.toList) ++ after)
  identifier : IsIdent U name
  ends : ¬ startsWord U after.text

namespace BodyLabel

variable {ts : List (Traced U)}

/-- The text in front of the label. -/
def text (l : BodyLabel ts) : Text := (l.front.map Traced.text).flatten ++ numberLabels U l.birth.number l.before.text

/-- The label in the text that comes out. -/
def final (l : BodyLabel ts) : Text := labelBehind U l.text (numbered l.birth.number l.name)

def rest (l : BodyLabel ts) : Text := numberLabels U l.birth.number l.after.text ++ (l.back.map Traced.text).flatten

theorem whole (l : BodyLabel ts) : (ts.map Traced.text).flatten =
    l.text ++ ('~' :: '@' :: (numbered l.birth.number l.name).toList ++ l.rest) := by
  have own : l.birth.marked.text = l.before.text ++ ('~' :: '@' :: l.name.toList ++ l.after.text) := by
    rw [l.chars, text_append, text_append, text_mark]
  have line : (Traced.made l.birth : Traced U).text = numberLabels U l.birth.number l.before.text ++
      ('~' :: '@' :: (numbered l.birth.number l.name).toList ++ numberLabels U l.birth.number l.after.text) := by
    change numberLabels U _ l.birth.marked.text = _
    rw [own, numberLabels_eq, cut_label l.identifier _ l.ends, List.map_append, uncut_append, numberLabels_eq,
      numberLabels_eq]
    rfl
  rw [congrArg (fun ts => (ts.map Traced.text).flatten) l.lines, List.map_append, List.flatten_append, List.map_cons,
    List.flatten_cons, line, text, rest]
  simp only [List.append_assoc, List.cons_append]

/-- The label ends inside its line. -/
theorem rest_ends (l : BodyLabel ts) (sound : Sound l.birth.call.target) (inside : l.birth.line ∈ l.birth.call.target.body) :
    ¬ startsWord U l.rest := by
  obtain ⟨m, c, shape, ends⟩ := Birth.marked_end sound inside
  have some : l.after ≠ [] := by
    intro none
    have last : m ++ [(c, Origin.body)] = l.before ++ mark .body ('~' :: '@' :: l.name.toList) := by
      rw [← shape, l.chars, none, List.append_nil]
    have text := congrArg (List.getLast? ∘ Marked.text) last
    obtain ⟨d, ds, letters, -, all⟩ := l.identifier.word
    have line : Marked.text [(c, Origin.body)] = [c] := rfl
    have long : ('~' :: '@' :: d :: ds).getLast? = (d :: ds).getLast? := by rw [List.getLast?_cons_cons, List.getLast?_cons_cons]
    rw [Function.comp, Function.comp, text_append, text_append, text_mark, letters, line, List.getLast?_concat,
      List.getLast?_append, long] at text
    have found : (d :: ds).getLast? = some c := by
      rw [List.getLast?_cons, Option.some_or] at text
      rw [List.getLast?_cons, text]
    have word' := all c (List.mem_of_getLast? found)
    rw [(lineBreak_plain ends).1] at word'
    cases word'
  rintro ⟨d, first, word⟩
  refine l.ends ⟨d, ?_, word⟩
  cases letters : l.after.text with
  | nil => exact absurd (List.map_eq_nil_iff.mp letters) some
  | cons x s =>
    have head := numberLabels_head (U := U) l.birth.number l.after.text
    rw [rest, List.head?_append, head, letters] at first
    exact first

end BodyLabel

/-- The lines that come out. -/
def finalLines (U : CharClasses) (macros : Dict Macro) (lines : List Text) : List (Traced U) :=
  (traceAfter U macros lines MAX_PASSES).2

/-- Two labels that come from bodies are given the same label exactly if they come from the same call and have the same
name there. -/
theorem local_labels_apart {src out : Text} {lines : List Text}
    (parsed : parseDefs U filename 1 none [] (splitLines src) = .ok (macros, lines))
    (ok : expandMacros U filename src = .ok out) :
    out = ((finalLines U macros lines).map Traced.text).flatten ∧
      (∀ l : BodyLabel (finalLines U macros lines), ∃ rest,
        expandLocalLabels U out = expandLocalLabels U l.text ++ (l.final ++ rest)) ∧
      ∀ l l' : BodyLabel (finalLines U macros lines),
        l.final = l'.final ↔ l.birth.inst = l'.birth.inst ∧ l.name = l'.name := by
  obtain ⟨macros', lines', parsed', same⟩ := expandMacros_trace ok
  cases parsed.symm.trans parsed'
  have all : ∀ name target, macros.get? name = some target → Sound target := by
    refine parseDefs_sound parsed (fun line => splitLines_ended src) (fun name target none => ?_) (fun d shape => ?_)
    · cases none
    · cases shape
  have member (l : BodyLabel (finalLines U macros lines)) : .made l.birth ∈ finalLines U macros lines := by
    rw [congrArg (Traced.made l.birth ∈ ·) l.lines]
    exact List.mem_append_right _ List.mem_cons_self
  have ends (l : BodyLabel (finalLines U macros lines)) : ¬ startsWord U l.rest := by
    obtain ⟨known, inside⟩ := traceAfter_body (member l)
    exact l.rest_ends (all _ _ known) inside
  have split (l : BodyLabel (finalLines U macros lines)) := same.trans l.whole
  have identifier (l : BodyLabel (finalLines U macros lines)) : IsIdent U (numbered l.birth.number l.name) :=
    isIdent_numbered _ l.identifier
  refine ⟨same, fun l => ?_, fun l l' => ?_⟩
  · rw [congrArg (expandLocalLabels U) (split l)]
    exact expandLocalLabels_at (identifier l) l.text (ends l)
  · have number : l.birth.inst = l'.birth.inst ↔ l.birth.number = l'.birth.number :=
      (traceAfter_numbered lines MAX_PASSES).one (member l) (member l')
    rw [number]
    constructor
    · intro equal
      by_contra different
      refine labelBehind_ne (fun written => different ?_) equal
      exact numbered_injective written
    · rintro ⟨number, name⟩
      have written : numbered l.birth.number l.name = numbered l'.birth.number l'.name := by rw [number, name]
      rw [BodyLabel.final, BodyLabel.final, written]
      exact labelBehind_same (identifier l') (written ▸ split l) (ends l) (split l') (ends l')

/-- A macro with a label, called twice. -/
def calledTwice : Text := "macro: again\n~@top\nend:macro\nagain\nagain\n".toList

theorem local_labels_apart_twice : ∃ l l' : BodyLabel (finalLines CharClasses.ascii [("again", ⟨[], ["~@top\n".toList]⟩)]
    ["again\n".toList, "again\n".toList]), l.name = "top" ∧ l'.name = "top" ∧ l.final ≠ l'.final := by
  have parsed : parseDefs .ascii "f" 1 none [] (splitLines calledTwice) =
      .ok ([("again", ⟨[], ["~@top\n".toList]⟩)], ["again\n".toList, "again\n".toList]) := by decide
  have ok : expandMacros .ascii "f" calledTwice = .ok "~@top__m1\n~@top__m2\n".toList := by decide
  obtain ⟨-, -, apart⟩ := local_labels_apart parsed ok
  let birth (place : Nat) : Birth :=
    ⟨⟨0, place⟩, place + 1, ⟨"again", ⟨[], ["~@top\n".toList]⟩, none⟩, "~@top\n".toList⟩
  have lines : finalLines CharClasses.ascii [("again", ⟨[], ["~@top\n".toList]⟩)] ["again\n".toList, "again\n".toList] =
      [.made (birth 0), .made (birth 1)] := by decide
  have chars (place : Nat) : (birth place).marked = [] ++ (mark .body ('~' :: '@' :: "top".toList) ++ mark .body ['\n']) := rfl
  have identifier : IsIdent CharClasses.ascii "top" := by unfold IsIdent; decide
  have ends : ¬ startsWord CharClasses.ascii (mark .body ['\n']).text := by
    rintro ⟨c, first, inside⟩
    cases first
    cases inside
  refine ⟨⟨[], birth 0, [.made (birth 1)], lines, [], "top", _, chars 0, identifier, ends⟩,
    ⟨[.made (birth 0)], birth 1, [], lines, [], "top", _, chars 1, identifier, ends⟩, rfl, rfl, ?_⟩
  rw [Ne, apart]
  rintro ⟨same, -⟩
  cases same

/-! ### Labels of arguments -/

/-- A local label in the text that comes out which a call has been given for a parameter. -/
structure ArgumentLabel (ts : List (Traced U)) where
  front : List (Traced U)
  birth : Birth
  back : List (Traced U)
  lines : ts = front ++ .made birth :: back
  vals : List Text
  called : birth.call.vals = some vals
  param : String
  name : String
  passed : (mapping birth.call.target.args vals).get? param = some ('~' :: '@' :: name.toList)
  before : Marked
  after : Marked
  chars : birth.marked = before ++ (mark (.value param) ('~' :: '@' :: name.toList) ++ after)
  identifier : IsIdent U name
  ends : ¬ startsWord U after.text

namespace ArgumentLabel

variable {ts : List (Traced U)}

def text (l : ArgumentLabel ts) : Text := (l.front.map Traced.text).flatten

/-- The label of the argument, when it is also written on a line of its own in front of that of the call. -/
def direct (l : ArgumentLabel ts) : Text := labelBehind U l.text l.name

/-- The label that is written for the parameter then. -/
def final (l : ArgumentLabel ts) : Text :=
  labelBehind U (l.text ++ ('~' :: '@' :: l.name.toList ++ '\n' :: numberLabels U l.birth.number l.before.text))
    (numbered l.birth.number l.name)

theorem final_ne (l : ArgumentLabel ts) : l.final ≠ l.direct := by
  refine labelBehind_ne fun same => ?_
  have length := congrArg (List.length ∘ String.toList) same
  rw [Function.comp, Function.comp, numbered_toList, List.length_append, List.length_cons] at length
  omega

end ArgumentLabel

/-- Labels that are passed to a macro stay what they are. -/
def KeepsArguments (U : CharClasses) (filename : String) (src : Text) : Prop :=
  ∀ macros lines out, parseDefs U filename 1 none [] (splitLines src) = .ok (macros, lines) →
    expandMacros U filename src = .ok out → ∀ l : ArgumentLabel (finalLines U macros lines), l.final = l.direct

/-- They do so only where none of them is used. -/
theorem keeps_arguments_iff (src : Text) :
    KeepsArguments U filename src ↔
      ∀ macros lines out, parseDefs U filename 1 none [] (splitLines src) = .ok (macros, lines) →
        expandMacros U filename src = .ok out → IsEmpty (ArgumentLabel (finalLines U macros lines)) := by
  constructor
  · intro keeps macros lines out parsed ok
    exact ⟨fun l => l.final_ne (keeps macros lines out parsed ok l)⟩
  · intro none macros lines out parsed ok l
    exact (none macros lines out parsed ok).elim l

/-- A macro that jumps to the label it is given. -/
def jumpsTo : Text := "macro: leap to\njump $to\nend:macro\n~@top\nleap ~@top\n".toList

theorem keeps_arguments_wrong : ¬ KeepsArguments CharClasses.ascii "f" jumpsTo ∧
    (expandMacros .ascii "f" jumpsTo).map (expandLocalLabels .ascii) =
      .ok "~__loc1_top\njump ~__loc2_top__m1\n".toList := by
  have written : (expandMacros .ascii "f" jumpsTo).map (expandLocalLabels .ascii) =
      .ok "~__loc1_top\njump ~__loc2_top__m1\n".toList := by decide
  refine ⟨fun keeps => ?_, written⟩
  let target : Macro := ⟨["to".toList], ["jump $to\n".toList]⟩
  let birth : Birth := ⟨⟨0, 1⟩, 1, ⟨"leap", target, some ["~@top".toList]⟩, "jump $to\n".toList⟩
  have parsed : parseDefs .ascii "f" 1 none [] (splitLines jumpsTo) =
      .ok ([("leap", target)], ["~@top\n".toList, "leap ~@top\n".toList]) := by decide
  have ok : expandMacros .ascii "f" jumpsTo = .ok "~@top\njump ~@top__m1\n".toList := by decide
  have lines : finalLines CharClasses.ascii [("leap", target)] ["~@top\n".toList, "leap ~@top\n".toList] =
      [.source "~@top\n".toList] ++ .made birth :: [] := by decide
  have passed : (mapping target.args ["~@top".toList]).get? "to" = some ('~' :: '@' :: "top".toList) := by decide
  have chars : birth.marked = mark .body "jump ".toList ++
      (mark (.value "to") ('~' :: '@' :: "top".toList) ++ mark .body ['\n']) := by decide
  have identifier : IsIdent CharClasses.ascii "top" := by unfold IsIdent; decide
  have ends : ¬ startsWord CharClasses.ascii (mark .body ['\n']).text := by
    rintro ⟨c, first, inside⟩
    cases first
    cases inside
  let l : ArgumentLabel _ := ⟨_, birth, _, lines, _, rfl, "to", "top", passed, _, _, chars, identifier, ends⟩
  exact l.final_ne (keeps _ _ _ parsed ok l)

end Aclm.Macros
