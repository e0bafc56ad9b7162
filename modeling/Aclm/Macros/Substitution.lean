import Aclm.Macros.Labels
import Aclm.Macros.Passes
import Mathlib.Data.List.TakeWhile

/-! The parameters of a macro: one after the other replaced by their values, or all at once as whole words. -/

set_option autoImplicit false

namespace Aclm.Macros

open Text

/-- What a line of a body consists of: characters, and whole `$word`s that name a parameter. -/
inductive Part where
  | char (c : Char)
  | param (name : Text)
  deriving DecidableEq

def Part.text : Part → Text
  | .char c => [c]
  | .param name => '$' :: name

def spell (ps : List Part) : Text := ps.flatMap Part.text

section Parts

variable (U : CharClasses) (args : List Text)

/-- The parts of a text, of which so many characters are still to be skipped. -/
def partsFrom : Nat → Text → List Part
  | _, [] => []
  | k + 1, _ :: s => partsFrom k s
  | 0, c :: s =>
    let name := s.takeWhile (word U)
    if c = '$' ∧ name ≠ [] ∧ name ∈ args then .param name :: partsFrom name.length s else .char c :: partsFrom 0 s

def parts (line : Text) : List Part := partsFrom U args 0 line

end Parts

/-- A parameter with a value, and what stands for it then. -/
def fill (d : List (Text × Text)) : Part → List Part
  | .char c => [.char c]
  | .param name => match d.lookup name with
    | some v => v.map .char
    | none => [.param name]

def fillAll (d : List (Text × Text)) (ps : List Part) : List Part := ps.flatMap (fill d)

/-- Every whole `$word` that is a parameter is replaced by its value, all at once. -/
def simultaneous (U : CharClasses) (args vals : List Text) (line : Text) : Text :=
  spell (fillAll (args.zip vals) (parts U args line))

/-- The name of the parameter can be read behind a `$` where it is not the whole word of the body. -/
def Misread (k : Text) (ps : List Part) : Prop :=
  ∃ front p back, ps = front ++ p :: back ∧ p ≠ .param k ∧ '$' :: k <+: spell (p :: back)

/-- Each parameter, once those before it have their values, can be read only where it is the whole word of the body. -/
def ReadWhole (d : List (Text × Text)) (ps : List Part) : Prop :=
  ∀ before k v after, d = before ++ (k, v) :: after → ¬ Misread k (fillAll before ps)

theorem misread_cons {k : Text} {p : Part} {ps : List Part} :
    Misread k (p :: ps) ↔ p ≠ .param k ∧ '$' :: k <+: spell (p :: ps) ∨ Misread k ps := by
  constructor
  · rintro ⟨front, q, back, shape, other, read⟩
    cases front with
    | nil =>
      cases shape
      exact .inl ⟨other, read⟩
    | cons q' front =>
      cases shape
      exact .inr ⟨front, q, back, rfl, other, read⟩
  · rintro (⟨other, read⟩ | ⟨front, q, back, rfl, other, read⟩)
    · exact ⟨[], p, ps, rfl, other, read⟩
    · exact ⟨p :: front, q, back, rfl, other, read⟩

theorem not_misread_nil {k : Text} : ¬ Misread k [] := by
  rintro ⟨front, p, back, shape, -, -⟩
  cases front <;> cases shape

instance decidableMisread (k : Text) : (ps : List Part) → Decidable (Misread k ps)
  | [] => isFalse not_misread_nil
  | _ :: ps => @decidable_of_iff' _ _ misread_cons (@instDecidableOr _ _ inferInstance (decidableMisread k ps))

theorem readWhole_iff {d : List (Text × Text)} {ps : List Part} :
    ReadWhole d ps ↔ ∀ i : Fin d.length, ¬ Misread d[i].1 (fillAll (d.take i) ps) := by
  constructor
  · intro whole i
    have split := (List.take_append_drop i d).symm.trans (congrArg _ (List.drop_eq_getElem_cons i.2))
    exact whole _ _ d[i].2 _ split
  · rintro whole before k v after rfl
    have here := whole ⟨before.length, by simp⟩
    simpa using here

instance (d : List (Text × Text)) (ps : List Part) : Decidable (ReadWhole d ps) := decidable_of_iff' _ readWhole_iff

theorem spell_append (ps qs : List Part) : spell (ps ++ qs) = spell ps ++ spell qs := List.flatMap_append

theorem spell_chars (s : Text) : spell (s.map .char) = s := by
  induction s with
  | nil => rfl
  | cons c s ih => exact congrArg (c :: ·) ih

/-! ### One parameter -/

theorem replaceFrom_skip (old new : Text) (s t : Text) : replaceFrom old new s.length (s ++ t) = replaceFrom old new 0 t := by
  induction s with
  | nil => rfl
  | cons c s ih => exact ih

theorem replace_hit (old new t : Text) {c : Char} (s : Text) (shape : old = c :: s) :
    replace old new (old ++ t) = new ++ replace old new t := by
  subst shape
  have hit : (c :: s).isPrefixOf (c :: (s ++ t)) = true := List.isPrefixOf_iff_prefix.mpr (List.prefix_append _ _)
  unfold replace
  rw [List.cons_append, replaceFrom, if_pos hit, List.length_cons, Nat.add_sub_cancel, replaceFrom_skip]

theorem replace_miss {old : Text} (new : Text) {c : Char} {s : Text} (miss : ¬ old <+: c :: s) :
    replace old new (c :: s) = c :: replace old new s := by
  have no : ¬ old.isPrefixOf (c :: s) = true := fun hit => miss (List.isPrefixOf_iff_prefix.mp hit)
  unfold replace
  rw [replaceFrom, if_neg no]

/-- Nothing is replaced in a text without the first character of what is looked for. -/
theorem replace_plain {old : Text} (new : Text) {c : Char} {rest : Text} (shape : old = c :: rest) {s : Text} (t : Text)
    (plain : c ∉ s) : replace old new (s ++ t) = s ++ replace old new t := by
  subst shape
  induction s with
  | nil => rfl
  | cons x s ih =>
    obtain ⟨other, plain⟩ := not_or.mp (mt List.mem_cons.mpr plain)
    rw [List.cons_append, replace_miss, ih plain, List.cons_append]
    rintro ⟨behind, same⟩
    exact other (List.cons.inj same).1

/-- Parameters are words, and no word has a `$` in it. -/
def Words (ps : List Part) : Prop := ∀ name, .param name ∈ ps → '$' ∉ name

theorem replace_spell {k : Text} (v : Text) {ps : List Part} (words : Words ps) (clean : ¬ Misread k ps) :
    replace ('$' :: k) v (spell ps) = spell (fillAll [(k, v)] ps) := by
  induction ps with
  | nil => rfl
  | cons p ps ih =>
    have ih := ih (fun name member => words name (List.mem_cons_of_mem _ member)) fun wrong =>
      clean (misread_cons.mpr (.inr wrong))
    have first : p ≠ .param k → ¬ '$' :: k <+: spell (p :: ps) := fun other read =>
      clean (misread_cons.mpr (.inl ⟨other, read⟩))
    change replace _ v (p.text ++ spell ps) = spell (fill [(k, v)] p ++ fillAll [(k, v)] ps)
    rw [spell_append, ← ih]
    cases p with
    | char c => exact replace_miss v (first nofun)
    | param name =>
      by_cases same : name = k
      · subst same
        have value : fill [(name, v)] (.param name) = v.map .char := by simp [fill]
        rw [value, spell_chars]
        exact replace_hit _ v _ name rfl
      · have kept : fill [(k, v)] (.param name) = [.param name] := by
          simp [fill, List.lookup_cons, beq_false_of_ne same]
        rw [kept]
        have plain := words name List.mem_cons_self
        have miss : ¬ '$' :: k <+: '$' :: (name ++ spell ps) := first (by simpa using same)
        change replace _ v ('$' :: (name ++ spell ps)) = '$' :: name ++ [] ++ _
        rw [replace_miss v miss, replace_plain v rfl _ plain, List.append_nil, List.cons_append]

/-! ### All parameters -/

theorem fillAll_append (d : List (Text × Text)) (ps qs : List Part) : fillAll d (ps ++ qs) = fillAll d ps ++ fillAll d qs :=
  List.flatMap_append

theorem fillAll_chars (d : List (Text × Text)) (s : Text) : fillAll d (s.map .char) = s.map .char := by
  induction s with
  | nil => rfl
  | cons c s ih => exact congrArg (Part.char c :: ·) ih

theorem fillAll_nil (ps : List Part) : fillAll [] ps = ps := by
  induction ps with
  | nil => rfl
  | cons p ps ih => cases p <;> exact congrArg (_ :: ·) ih

theorem lookup_append (d e : List (Text × Text)) (k : Text) : (d ++ e).lookup k = (d.lookup k).or (e.lookup k) := by
  induction d with
  | nil => rfl
  | cons entry d ih =>
    obtain ⟨k', v⟩ := entry
    rw [List.cons_append, List.lookup_cons, List.lookup_cons, ih]
    split <;> rfl

/-- A value is given at once, or after those of other parameters. -/
theorem fillAll_fillAll (d e : List (Text × Text)) (ps : List Part) : fillAll e (fillAll d ps) = fillAll (d ++ e) ps := by
  induction ps with
  | nil => rfl
  | cons p ps ih =>
    change fillAll e (fill d p ++ fillAll d ps) = fill (d ++ e) p ++ fillAll (d ++ e) ps
    rw [fillAll_append, ih]
    congr 1
    cases p with
    | char c => rfl
    | param name =>
      rw [fill, fill, lookup_append]
      cases found : d.lookup name with
      | some v => exact fillAll_chars e v
      | none => exact List.append_nil _

theorem fillAll_words {d : List (Text × Text)} {ps : List Part} (words : Words ps) : Words (fillAll d ps) := by
  intro name member
  obtain ⟨p, inside, made⟩ := List.mem_flatMap.mp member
  cases p with
  | char c => cases List.mem_singleton.mp made
  | param other =>
    rw [fill] at made
    split at made
    · obtain ⟨c, -, same⟩ := List.mem_map.mp made
      cases same
    · cases List.mem_singleton.mp made
      exact words _ inside

def replaceAll (d : List (Text × Text)) (line : Text) : Text :=
  d.foldl (fun line entry => replace ('$' :: entry.1) entry.2 line) line

theorem replaceAll_spell {ps : List Part} (words : Words ps) (d e : List (Text × Text)) (whole : ReadWhole (d ++ e) ps) :
    replaceAll e (spell (fillAll d ps)) = spell (fillAll (d ++ e) ps) := by
  induction e generalizing d with
  | nil => rw [List.append_nil]; rfl
  | cons entry e ih =>
    obtain ⟨k, v⟩ := entry
    have step := replace_spell v (fillAll_words words) (whole d k v e rfl)
    rw [replaceAll, List.foldl_cons, step, fillAll_fillAll, ← replaceAll]
    have rest := ih (d ++ [(k, v)]) (by rwa [List.append_assoc])
    rwa [List.append_assoc] at rest

/-! ### Parts of a text -/

variable {U : CharClasses} {args : List Text}

theorem partsFrom_nil (k : Nat) : partsFrom U args k [] = [] := by cases k <;> rfl

theorem partsFrom_param {c : Char} {s : Text} (param : c = '$' ∧ s.takeWhile (word U) ≠ [] ∧ s.takeWhile (word U) ∈ args) :
    partsFrom U args 0 (c :: s) = .param (s.takeWhile (word U)) :: partsFrom U args (s.takeWhile (word U)).length s :=
  if_pos param

theorem partsFrom_char {c : Char} {s : Text} (plain : ¬(c = '$' ∧ s.takeWhile (word U) ≠ [] ∧ s.takeWhile (word U) ∈ args)) :
    partsFrom U args 0 (c :: s) = .char c :: partsFrom U args 0 s :=
  if_neg plain

theorem spell_partsFrom (k : Nat) (s : Text) : spell (partsFrom U args k s) = s.drop k := by
  induction k, s using partsFrom.induct U args with
  | case1 k =>
    rw [partsFrom_nil, List.drop_nil]
    rfl
  | case2 k c s ih => exact ih
  | case3 c s name param ih =>
    obtain ⟨rfl, -, -⟩ := id param
    have front : name ++ s.drop name.length = s := List.prefix_iff_eq_append.mp (List.takeWhile_prefix _)
    rw [partsFrom_param param]
    change '$' :: (name ++ spell _) = _
    rw [ih, front, List.drop_zero]
  | case4 c s name plain ih =>
    rw [partsFrom_char plain]
    exact congrArg (c :: ·) ih

theorem spell_parts (line : Text) : spell (parts U args line) = line := spell_partsFrom 0 line

theorem partsFrom_words (k : Nat) (s : Text) : Words (partsFrom U args k s) := by
  induction k, s using partsFrom.induct U args with
  | case1 k => exact fun name member => by cases member
  | case2 k c s ih => exact ih
  | case3 c s name param ih =>
    intro other member
    rw [partsFrom_param param] at member
    rcases List.mem_cons.mp member with same | member
    · cases same
      intro dollar
      have class' : word U '$' = true := List.mem_takeWhile_imp dollar
      rw [word_ascii U (by decide)] at class'
      cases class'
    · exact ih other member
  | case4 c s name plain ih =>
    intro other member
    rw [partsFrom_char plain] at member
    rcases List.mem_cons.mp member with same | member
    · cases same
    · exact ih other member

theorem set_fresh {α : Type} {d : Dict α} {key : String} (fresh : key ∉ d.keys) (value : α) :
    d.set key value = d ++ [(key, value)] := by
  induction d with
  | nil => rfl
  | cons entry d ih =>
    obtain ⟨other, fresh⟩ := not_or.mp (mt List.mem_cons.mpr fresh)
    rw [Dict.set, if_neg (Ne.symm other), ih fresh, List.cons_append]

theorem setAll_fresh {entries : List (Text × Text)} {d : Dict Text} (distinct : (entries.map Prod.fst).Nodup)
    (fresh : ∀ k ∈ entries.map Prod.fst, String.ofList k ∉ d.keys) :
    entries.foldl (fun d entry => d.set (.ofList entry.1) entry.2) d =
      d ++ entries.map fun entry => (.ofList entry.1, entry.2) := by
  induction entries generalizing d with
  | nil => exact (List.append_nil d).symm
  | cons entry entries ih =>
    obtain ⟨new, distinct⟩ := List.nodup_cons.mp distinct
    have front := set_fresh (fresh entry.1 List.mem_cons_self) entry.2
    have rest : ∀ k ∈ entries.map Prod.fst, String.ofList k ∉ (d ++ [(String.ofList entry.1, entry.2)]).keys := by
      intro k member inside
      rw [Dict.keys, List.map_append] at inside
      rcases List.mem_append.mp inside with old | last
      · exact fresh k (List.mem_cons_of_mem _ member) old
      · have same : k = entry.1 := String.ofList_injective (List.mem_singleton.mp last)
        exact new (same ▸ member)
    rw [List.foldl_cons, front, ih distinct rest, List.append_assoc]
    rfl

theorem zip_keys (args vals : List Text) : (args.zip vals).map Prod.fst <+: args := by
  induction args generalizing vals with
  | nil => exact List.prefix_refl _
  | cons k args ih => cases vals with
    | nil => exact List.nil_prefix
    | cons v vals => exact List.cons_prefix_cons.mpr ⟨rfl, ih vals⟩

theorem mapping_eq {vals : List Text} (distinct : args.Nodup) :
    mapping args vals = (args.zip vals).map fun entry => (.ofList entry.1, entry.2) :=
  setAll_fresh (distinct.sublist (zip_keys args vals).sublist) fun _ _ => List.not_mem_nil

theorem substitute_eq {vals : List Text} (distinct : args.Nodup) (line : Text) :
    substitute (mapping args vals) line = replaceAll (args.zip vals) line := by
  rw [substitute, mapping_eq distinct, List.foldl_map, replaceAll]
  simp only [String.toList_ofList]

/-- Where every parameter is read as a whole word, replacing one after the other comes to replacing all at once. -/
theorem substitute_simultaneous {vals : List Text} (distinct : args.Nodup) {line : Text}
    (whole : ReadWhole (args.zip vals) (parts U args line)) :
    substitute (mapping args vals) line = simultaneous U args vals line := by
  have all := replaceAll_spell (partsFrom_words 0 line) [] (args.zip vals) whole
  rw [fillAll_nil, ← parts, spell_parts] at all
  rw [substitute_eq distinct, all]
  rfl

/-! ### What a replacement that goes wrong leaves behind -/

/-- The places of the text at which the word can be read. -/
def readings (old : Text) : Text → Nat
  | [] => 0
  | c :: s => (if old <+: c :: s then 1 else 0) + readings old s

theorem readings_append (old s t : Text) : readings old t ≤ readings old (s ++ t) := by
  induction s with
  | nil => exact Nat.le_refl _
  | cons c s ih =>
    rw [List.cons_append, readings]
    omega

theorem places_readings (k : Text) (ps : List Part) :
    ps.count (.param k) ≤ readings ('$' :: k) (spell ps) ∧
      (Misread k ps → ps.count (.param k) < readings ('$' :: k) (spell ps)) := by
  induction ps with
  | nil => exact ⟨Nat.le_refl _, fun wrong => absurd wrong not_misread_nil⟩
  | cons p ps ih =>
    obtain ⟨all, more⟩ := ih
    obtain ⟨c, rest, first⟩ : ∃ c rest, p.text = c :: rest := by cases p <;> exact ⟨_, _, rfl⟩
    have whole : spell (p :: ps) = c :: (rest ++ spell ps) := congrArg (· ++ spell ps) first
    have behind := readings_append ('$' :: k) rest (spell ps)
    rw [whole, readings, ← whole, List.count_cons]
    by_cases same : p = .param k
    · subst same
      have here : '$' :: k <+: spell (.param k :: ps) := List.prefix_append ('$' :: k) (spell ps)
      rw [if_pos here, if_pos (beq_self_eq_true _)]
      refine ⟨by omega, fun wrong => ?_⟩
      rcases misread_cons.mp wrong with ⟨other, -⟩ | wrong
      · exact absurd rfl other
      · have strict := more wrong
        omega
    · rw [if_neg (show ¬(p == .param k) = true by simpa using same)]
      refine ⟨by omega, fun wrong => ?_⟩
      rcases misread_cons.mp wrong with ⟨-, read⟩ | wrong
      · rw [if_pos read]
        omega
      · have strict := more wrong
        omega

/-- Where no reading of the word can begin inside another one, each of them is replaced. -/
theorem length_replaceFrom_readings {k : Text} (plain : '$' ∉ k) (v : Text) (skip : Nat) (s : Text)
    (skipped : '$' ∉ s.take skip) : readings ('$' :: k) s * v.length ≤ (replaceFrom ('$' :: k) v skip s).length := by
  induction s generalizing skip with
  | nil => exact (Nat.zero_mul _).le.trans (Nat.zero_le _)
  | cons c s ih => cases skip with
    | succ skip =>
      rw [List.take_succ_cons] at skipped
      obtain ⟨other, skipped⟩ := not_or.mp (mt List.mem_cons.mpr skipped)
      have no : ¬ '$' :: k <+: c :: s := fun ⟨_, same⟩ => other (List.cons.inj same).1
      rw [readings, if_neg no, Nat.zero_add]
      exact ih skip skipped
    | zero =>
      rw [readings, replaceFrom]
      by_cases hit : '$' :: k <+: c :: s
      · obtain ⟨rest, same⟩ := id hit
        have tail : k ++ rest = s := (List.cons.inj same).2
        have behind := ih k.length (by rwa [← tail, List.take_left' rfl])
        rw [if_pos hit, if_pos (List.isPrefixOf_iff_prefix.mpr hit), Nat.add_mul, Nat.one_mul, List.length_append,
          List.length_cons, Nat.add_sub_cancel]
        exact Nat.add_le_add_left behind _
      · rw [if_neg hit, if_neg (mt List.isPrefixOf_iff_prefix.mp hit), Nat.zero_add, List.length_cons]
        exact (ih 0 List.not_mem_nil).trans (Nat.le_succ _)

theorem length_replace_reading {old : Text} (v s : Text) (some : 0 < readings old s) :
    v.length ≤ (replace old v s).length := by
  induction s with
  | nil => cases some
  | cons c s ih =>
    rw [readings] at some
    by_cases hit : old <+: c :: s
    · rw [replace, replaceFrom, if_pos (List.isPrefixOf_iff_prefix.mpr hit), List.length_append]
      exact Nat.le_add_right _ _
    · rw [if_neg hit, Nat.zero_add] at some
      rw [replace_miss v hit]
      exact (ih some).trans (Nat.le_succ _)

/-- No more characters are lost than the words that begin with a `$` have. -/
theorem length_replaceFrom_loss {k new : Text} (plain : '$' ∉ new) (skip : Nat) (s : Text) :
    s.length ≤ (replaceFrom ('$' :: k) new skip s).length + (k.length + 1) * s.count '$' + skip ∧
      (replaceFrom ('$' :: k) new skip s).count '$' ≤ s.count '$' := by
  induction s generalizing skip with
  | nil => exact ⟨Nat.zero_le _, Nat.le_refl _⟩
  | cons c s ih => cases skip with
    | succ skip =>
      obtain ⟨enough, fewer⟩ := ih skip
      have more : s.count '$' ≤ (c :: s).count '$' := List.count_le_count_cons
      have scaled := Nat.mul_le_mul_left (k.length + 1) more
      refine ⟨?_, fewer.trans more⟩
      rw [List.length_cons]
      change _ ≤ (replaceFrom _ new skip s).length + _ + _
      omega
    | zero =>
      rw [replaceFrom]
      by_cases hit : ('$' :: k).isPrefixOf (c :: s) = true
      · obtain ⟨rest, same⟩ := List.isPrefixOf_iff_prefix.mp hit
        obtain rfl : '$' = c := (List.cons.inj same).1
        rw [if_pos hit, List.length_append, List.count_append, List.count_eq_zero.mpr plain, List.count_cons_self,
          List.length_cons, List.length_cons, Nat.add_sub_cancel, Nat.mul_add, Nat.mul_one]
        obtain ⟨enough, fewer⟩ := ih k.length
        omega
      · rw [if_neg hit, List.length_cons, List.length_cons, List.count_cons, List.count_cons, Nat.mul_add]
        obtain ⟨enough, fewer⟩ := ih 0
        omega

/-- The parameters with these names, each with a value of one character. -/
def single (names : List Text) : List (Text × Text) := names.map (·, ['x'])

theorem lookup_single {names : List Text} {name v : Text} (found : (single names).lookup name = some v) : v = ['x'] := by
  induction names with
  | nil => cases found
  | cons k names ih =>
    rw [single, List.map_cons, List.lookup_cons] at found
    split at found
    · exact (Option.some.inj found).symm
    · exact ih found

theorem length_replaceAll_loss (names : List Text) (s : Text) :
    s.length ≤ (replaceAll (single names) s).length + (names.map fun name => name.length + 1).sum * s.count '$' := by
  induction names generalizing s with
  | nil => exact Nat.le_add_right _ _
  | cons name names ih =>
    obtain ⟨enough, fewer⟩ := @length_replaceFrom_loss name ['x'] (by decide) 0 s
    change s.length ≤ (replace ('$' :: name) ['x'] s).length + _ + 0 at enough
    change (replace ('$' :: name) ['x'] s).count '$' ≤ s.count '$' at fewer
    have rest := ih (replace ('$' :: name) ['x'] s)
    have scaled := Nat.mul_le_mul_left (names.map fun name => name.length + 1).sum fewer
    change s.length ≤ (replaceAll (single names) (replace ('$' :: name) ['x'] s)).length + _
    rw [List.map_cons, List.sum_cons, Nat.add_mul]
    omega

theorem length_spell_fillAll (k v : Text) (names : List Text) (ps : List Part) :
    (spell (fillAll ((k, v) :: single names) ps)).length ≤ ps.count (.param k) * v.length + (spell ps).length := by
  induction ps with
  | nil => exact Nat.zero_le _
  | cons p ps ih =>
    have whole : spell (fillAll ((k, v) :: single names) (p :: ps)) =
        spell (fill ((k, v) :: single names) p) ++ spell (fillAll ((k, v) :: single names) ps) := spell_append _ _
    have own : spell (p :: ps) = p.text ++ spell ps := rfl
    rw [whole, own, List.length_append, List.length_append, List.count_cons]
    cases p with
    | char c =>
      change 1 + _ ≤ (_ + 0) * _ + (1 + _)
      rw [Nat.add_zero]
      omega
    | param name =>
      by_cases same : name = k
      · subst same
        have value : fill ((name, v) :: single names) (.param name) = v.map .char := by simp [fill]
        rw [value, spell_chars, if_pos (beq_self_eq_true _), Nat.add_mul, Nat.one_mul]
        omega
      · have other : ¬(Part.param name == .param k) = true := by simpa using same
        have short : (spell (fill ((k, v) :: single names) (.param name))).length ≤ (Part.param name).text.length := by
          rw [fill, List.lookup_cons, beq_false_of_ne same]
          dsimp only
          cases found : (single names).lookup name with
          | none => exact Nat.le_of_eq (congrArg List.length (List.append_nil _))
          | some w =>
            rw [lookup_single found]
            exact Nat.le_add_left 1 name.length
        rw [if_neg other, Nat.add_zero]
        omega

/-- A parameter that is misread shows when its value is long enough. -/
theorem misread_differs {k : Text} {ps : List Part} (words : Words ps) (wrong : Misread k ps) (names : List Text) :
    ∃ n, replaceAll (single names) (replace ('$' :: k) (List.replicate (n + 1) 'x') (spell ps)) ≠
      spell (fillAll ((k, List.replicate (n + 1) 'x') :: single names) ps) := by
  refine ⟨(spell ps).length + (names.map fun name => name.length + 1).sum * (spell ps).count '$', fun same => ?_⟩
  generalize long : List.replicate _ 'x' = v at same
  have size := (congrArg List.length long).symm
  rw [List.length_replicate] at size
  have plain : '$' ∉ v := by
    rw [← long]
    intro member
    cases List.eq_of_mem_replicate member
  have readings := (places_readings k ps).2 wrong
  have grown : (ps.count (.param k) + 1) * v.length ≤ (replace ('$' :: k) v (spell ps)).length := by
    by_cases dollar : '$' ∈ k
    · have absent : ps.count (.param k) = 0 := List.count_eq_zero.mpr fun member => words k member dollar
      rw [absent, Nat.zero_add, Nat.one_mul]
      exact length_replace_reading v _ (by omega)
    · exact (Nat.mul_le_mul_right _ readings).trans (length_replaceFrom_readings dollar v 0 _ List.not_mem_nil)
  have fewer : (replace ('$' :: k) v (spell ps)).count '$' ≤ (spell ps).count '$' :=
    (length_replaceFrom_loss plain 0 (spell ps)).2
  have kept := length_replaceAll_loss names (replace ('$' :: k) v (spell ps))
  have small := length_spell_fillAll k v names ps
  have scaled := Nat.mul_le_mul_left (names.map fun name => name.length + 1).sum fewer
  rw [same] at kept
  rw [Nat.add_mul, Nat.one_mul] at grown
  omega

/-! ### Calls -/

/-- Values for all parameters, as the text behind the name of a macro can give them. -/
structure Supplies (target : Macro) (vals : List Text) : Prop where
  enough : target.args.length ≤ vals.length
  plain {v : Text} (member : v ∈ vals) : v ≠ [] ∧ ∀ c ∈ v, c ≠ ',' ∧ isSpace c = false

/-- A call with these values has for its lines those of the body, with every `$word` that is a parameter replaced by its
value, and all local labels numbered. -/
def SubstitutesAtOnce (U : CharClasses) (target : Macro) (vals : List Text) : Prop :=
  ∀ name n, (⟨name, target, some vals⟩ : Invocation).instantiate U n =
    target.body.map fun line => numberLabels U n (simultaneous U target.args vals line)

def ReadsWhole (U : CharClasses) (target : Macro) (vals : List Text) : Prop :=
  ∀ line ∈ target.body, ReadWhole (target.args.zip vals) (parts U target.args line)

theorem substitutes_iff (target : Macro) (vals : List Text) :
    SubstitutesAtOnce U target vals ↔
      ∀ line ∈ target.body, substitute (mapping target.args vals) line = simultaneous U target.args vals line := by
  constructor
  · intro same line member
    exact numberLabels_injective (List.map_inj_left.mp (same "" 0) line member)
  · intro same name n
    exact List.map_inj_left.mpr fun line member => congrArg (numberLabels U n) (same line member)

theorem zip_values {args vals : List Text} {d e : List (Text × Text)} (enough : args.length ≤ vals.length)
    (same : args.zip vals = d) (keys : e.map Prod.fst = d.map Prod.fst) : args.zip (e.map Prod.snd) = e := by
  have names : args = e.map Prod.fst := by rw [keys, ← same, List.map_fst_zip enough]
  rw [names]
  exact (List.zip_of_prod rfl rfl).symm

/-- Whatever can be misread is misread in some call. -/
theorem readsWhole_of_all {target : Macro} (distinct : target.args.Nodup)
    (all : ∀ vals, Supplies target vals → SubstitutesAtOnce U target vals) {vals : List Text} (supplied : Supplies target vals) :
    ReadsWhole U target vals := by
  intro line inside before
  -- The first parameter that is misread; its own value and those behind it are chosen.
  induction size : before.length using Nat.strongRecOn generalizing before with
  | ind size ih =>
    subst size
    intro k v after same wrong
    have whole : ReadWhole before (parts U target.args line) := by
      rintro first k' v' behind rfl
      refine ih first.length (by simp) first rfl k' v' (behind ++ (k, v) :: after) ?_
      rw [same, List.append_assoc]
      rfl
    have words : Words (parts U target.args line) := partsFrom_words 0 line
    obtain ⟨n, differs⟩ := misread_differs (fillAll_words words) wrong (after.map Prod.fst)
    let long : Text := List.replicate (n + 1) 'x'
    let chosen : List (Text × Text) := before ++ (k, long) :: single (after.map Prod.fst)
    have keys : chosen.map Prod.fst = (before ++ (k, v) :: after).map Prod.fst := by
      simp [chosen, single, Function.comp_def]
    have zipped : target.args.zip (chosen.map Prod.snd) = chosen := zip_values supplied.enough same keys
    have good : Supplies target (chosen.map Prod.snd) := by
      constructor
      · have count := congrArg List.length (List.map_fst_zip supplied.enough)
        rw [same, ← keys, List.length_map] at count
        rw [List.length_map, count]
      · intro w member
        rcases List.mem_append.mp (List.map_append ▸ member) with old | new
        · obtain ⟨entry, place, rfl⟩ := List.mem_map.mp old
          have inside : entry ∈ target.args.zip vals := same ▸ List.mem_append_left _ place
          exact supplied.plain (List.of_mem_zip inside).2
        · have letters : ∃ m, w = List.replicate (m + 1) 'x' := by
            rcases List.mem_cons.mp new with rfl | new
            · exact ⟨n, rfl⟩
            · obtain ⟨entry, place, rfl⟩ := List.mem_map.mp new
              obtain ⟨name, -, rfl⟩ := List.mem_map.mp place
              exact ⟨0, rfl⟩
          obtain ⟨m, rfl⟩ := letters
          refine ⟨List.cons_ne_nil _ _, fun c x => ?_⟩
          rw [List.eq_of_mem_replicate x]
          decide
    have equal := (substitutes_iff target _).mp (all _ good) line inside
    refine differs ?_
    rw [substitute_eq distinct, zipped, simultaneous, zipped] at equal
    have front := replaceAll_spell words [] before (by rwa [List.nil_append])
    rw [fillAll_nil, spell_parts, List.nil_append] at front
    rw [fillAll_fillAll, ← front]
    rw [replaceAll, List.foldl_append] at equal
    exact equal

theorem lookup_perm {d e : List (Text × Text)} (order : d.Perm e) (distinct : (d.map Prod.fst).Nodup) (k : Text) :
    d.lookup k = e.lookup k := by
  induction order with
  | nil => rfl
  | cons entry _ ih =>
    rw [List.lookup_cons, List.lookup_cons, ih (List.nodup_cons.mp distinct).2]
  | swap entry entry' rest =>
    have other : entry'.1 ≠ entry.1 := fun same => (List.nodup_cons.mp distinct).1 (List.mem_cons.mpr (.inl same))
    rw [List.lookup_cons, List.lookup_cons, List.lookup_cons, List.lookup_cons]
    by_cases first : k == entry.1
    · rw [first, beq_false_of_ne fun same => other (same.symm.trans (beq_iff_eq.mp first))]
    · rw [Bool.eq_false_iff.mpr first]
  | trans order _ ih ih' => exact (ih distinct).trans (ih' ((order.map Prod.fst).nodup distinct))

theorem partsFrom_args {args args' : List Text} (same : ∀ name, name ∈ args ↔ name ∈ args') (k : Nat) (s : Text) :
    partsFrom U args k s = partsFrom U args' k s := by
  induction k, s using partsFrom.induct U args with
  | case1 k => rw [partsFrom_nil, partsFrom_nil]
  | case2 k c s ih => exact ih
  | case3 c s name param ih =>
    rw [partsFrom_param param, partsFrom_param ⟨param.1, param.2.1, (same _).mp param.2.2⟩, ih]
  | case4 c s name plain ih =>
    rw [partsFrom_char plain, partsFrom_char fun param => plain ⟨param.1, param.2.1, (same _).mpr param.2.2⟩, ih]

theorem simultaneous_order {args args' vals vals' : List Text} (distinct : args.Nodup) (enough : args.length ≤ vals.length)
    (enough' : args'.length ≤ vals'.length) (order : (args.zip vals).Perm (args'.zip vals')) (line : Text) :
    simultaneous U args vals line = simultaneous U args' vals' line := by
  have names := order.map Prod.fst
  rw [List.map_fst_zip enough, List.map_fst_zip enough'] at names
  have values : fill (args.zip vals) = fill (args'.zip vals') := by
    funext p
    cases p with
    | char c => rfl
    | param name => rw [fill, fill, lookup_perm order (by rwa [List.map_fst_zip enough])]
  rw [simultaneous, simultaneous, parts, parts, partsFrom_args (fun name => names.mem_iff) 0 line, fillAll, fillAll, values]

/-- Replacing the parameters one after the other comes to replacing them at once, for a call in which each of them is read
only where it is a whole word of the body; and it does so for all calls of a macro exactly if all of them are such. The
order of the parameters does not matter when they are replaced at once. -/
theorem substitutes_at_once_iff {target : Macro} (distinct : target.args.Nodup) :
    (∀ vals, Supplies target vals → ReadsWhole U target vals → SubstitutesAtOnce U target vals) ∧
      ((∀ vals, Supplies target vals → SubstitutesAtOnce U target vals) ↔
        ∀ vals, Supplies target vals → ReadsWhole U target vals) ∧
      ∀ vals args' vals' line, Supplies target vals → args'.length ≤ vals'.length →
        (target.args.zip vals).Perm (args'.zip vals') →
        simultaneous U target.args vals line = simultaneous U args' vals' line := by
  have enough (vals : List Text) (whole : ReadsWhole U target vals) : SubstitutesAtOnce U target vals :=
    (substitutes_iff target vals).mpr fun line inside => substitute_simultaneous distinct (whole line inside)
  refine ⟨fun vals _ => enough vals, ⟨fun all vals supplied => readsWhole_of_all distinct all supplied, ?_⟩, ?_⟩
  · exact fun whole vals supplied => enough vals (whole vals supplied)
  · exact fun vals args' vals' line supplied enough' order =>
      simultaneous_order distinct supplied.enough enough' order line

/-- Two parameters, each of them in a body and none in the other's value. -/
def both : Macro := ⟨["a".toList, "b".toList], ["cpu:set $a = $b\n".toList]⟩

theorem substitutes_at_once_both : SubstitutesAtOnce CharClasses.ascii both ["reg1".toList, "2".toList] := by
  have supplied : ∀ v ∈ ["reg1".toList, "2".toList], v ≠ [] ∧ ∀ c ∈ v, c ≠ ',' ∧ isSpace c = false := by decide
  have whole : ∀ line ∈ both.body,
      ReadWhole (both.args.zip ["reg1".toList, "2".toList]) (parts CharClasses.ascii both.args line) := by decide
  exact (substitutes_at_once_iff (by decide)).1 _ ⟨by decide, fun {v} => supplied v⟩ whole

/-- The name of one parameter begins with that of another one. -/
def prefixed : Macro := ⟨["a".toList, "ab".toList], ["$ab\n".toList]⟩

theorem substitutes_at_once_wrong : prefixed.args.Nodup ∧ Supplies prefixed ["1".toList, "2".toList] ∧
    ¬ SubstitutesAtOnce CharClasses.ascii prefixed ["1".toList, "2".toList] := by
  have supplied : ∀ v ∈ ["1".toList, "2".toList], v ≠ [] ∧ ∀ c ∈ v, c ≠ ',' ∧ isSpace c = false := by decide
  refine ⟨by decide, ⟨by decide, fun {v} => supplied v⟩, fun same => ?_⟩
  have line := (substitutes_iff _ _).mp same "$ab\n".toList List.mem_cons_self
  exact absurd line (by decide)

end Aclm.Macros
