import Mathlib.Tactic.Basic

/-! The built-ins the compiler leans on: its exceptions, insertion-ordered dictionaries with string
keys, and the two string methods used to normalise names. -/

set_option autoImplicit false

namespace Aclm

inductive PyErr where
  | valueError (msg : String)
  | keyError (key : String)
  | nameError (name : String)
  | structError (msg : String)
  | attributeError (name : String)
  | assertionError
  | codegenError (msg : String)
  | syntaxError (msg : String)
  | systemExit (msg : String)
  | typeError (msg : String)
  | osError (msg : String)
  | recursionError
  deriving DecidableEq, Repr

theorem bind_eq_ok {α β : Type} {x : Except PyErr α} {f : α → Except PyErr β} {b : β} :
    x >>= f = .ok b ↔ ∃ a, x = .ok a ∧ f a = .ok b := by
  cases x with
  | error e => simp [bind, Except.bind]
  | ok a => simp [bind, Except.bind]

theorem ok_bind {α β : Type} (a : α) (f : α → Except PyErr β) : Except.ok a >>= f = f a := rfl

theorem exists_of_isOk {α : Type} {x : Except PyErr α} (ok : x.isOk = true) : ∃ a, x = .ok a := by
  cases x with
  | error e => cases ok
  | ok a => exact ⟨a, rfl⟩

/-- A dictionary in insertion order; setting a present key keeps its place. -/
abbrev Dict (α : Type) := List (String × α)

namespace Dict

variable {α : Type}

def get? : Dict α → String → Option α
  | [], _ => none
  | (k, v) :: rest, key => if k = key then some v else get? rest key

def contains (d : Dict α) (key : String) : Bool := (d.get? key).isSome

def set : Dict α → String → α → Dict α
  | [], key, value => [(key, value)]
  | (k, v) :: rest, key, value => if k = key then (k, value) :: rest else (k, v) :: set rest key value

def keys (d : Dict α) : List String := d.map Prod.fst

theorem get?_set (d : Dict α) (key key' : String) (value : α) :
    (d.set key value).get? key' = if key = key' then some value else d.get? key' := by
  induction d with
  | nil => rfl
  | cons entry rest ih =>
    obtain ⟨k, v⟩ := entry
    unfold set
    split
    · next here =>
      subst here
      by_cases same : k = key' <;> simp [get?, same]
    · next other =>
      by_cases here : k = key'
      · have : key ≠ key' := fun same => other (here.trans same.symm)
        simp [get?, here, this]
      · simp [get?, here, ih]

/-- No key has two entries; so it is for every dictionary that was built by `set`. -/
def Distinct (d : Dict α) : Prop := d.keys.Nodup

theorem mem_keys_set {d : Dict α} {key key' : String} {value : α} (member : key' ∈ (d.set key value).keys) :
    key' = key ∨ key' ∈ d.keys := by
  induction d with
  | nil => exact .inl (List.mem_singleton.mp member)
  | cons entry rest ih =>
    obtain ⟨k, v⟩ := entry
    unfold set at member
    split at member
    · exact .inr member
    · rcases List.mem_cons.mp member with same | member
      · exact .inr (List.mem_cons.mpr (.inl same))
      · exact (ih member).imp_right (List.mem_cons_of_mem _)

theorem Distinct.set {d : Dict α} (distinct : d.Distinct) (key : String) (value : α) :
    (d.set key value).Distinct := by
  induction d with
  | nil => simp [Distinct, keys, Dict.set]
  | cons entry rest ih =>
    obtain ⟨k, v⟩ := entry
    obtain ⟨fresh, distinct⟩ := List.nodup_cons.mp distinct
    unfold Dict.set
    split
    · exact List.nodup_cons.mpr ⟨fresh, distinct⟩
    · next other =>
      refine List.nodup_cons.mpr ⟨fun member => ?_, ih distinct⟩
      rcases mem_keys_set member with same | member
      · exact other same
      · exact fresh member

theorem mem_keys_of_get? {d : Dict α} {key : String} {value : α} (found : d.get? key = some value) :
    key ∈ d.keys := by
  induction d with
  | nil => cases found
  | cons entry rest ih =>
    unfold get? at found
    split at found
    · next same => exact List.mem_cons.mpr (.inl same.symm)
    · exact List.mem_cons_of_mem _ (ih found)

theorem get?_of_mem_keys {d : Dict α} {key : String} (member : key ∈ d.keys) : ∃ value, d.get? key = some value := by
  induction d with
  | nil => cases member
  | cons entry rest ih =>
    unfold get?
    split
    · exact ⟨_, rfl⟩
    · next other =>
      rcases List.mem_cons.mp member with same | member
      · exact absurd same.symm other
      · exact ih member

/-- An entry that a later one does not shadow is what a lookup finds. -/
theorem get?_append (d e : Dict α) (key : String) :
    (d ++ e).get? key = (d.get? key).or (e.get? key) := by
  induction d with
  | nil => rfl
  | cons entry rest ih =>
    simp only [List.cons_append, get?]
    split
    · rfl
    · exact ih

theorem get?_map_value {β : Type} (f : α → β) (d : Dict α) (key : String) :
    Dict.get? (d.map fun e => (e.1, f e.2)) key = (d.get? key).map f := by
  induction d with
  | nil => rfl
  | cons entry rest ih =>
    simp only [List.map_cons, Dict.get?]
    split
    · rfl
    · exact ih

end Dict

/-- `str.isspace` of one character. -/
def isSpace (c : Char) : Bool :=
  let n := c.toNat
  (9 ≤ n && n ≤ 13) || (28 ≤ n && n ≤ 32) || n == 0x85 || n == 0xA0 || n == 0x1680 ||
    (0x2000 ≤ n && n ≤ 0x200A) || n == 0x2028 || n == 0x2029 || n == 0x202F || n == 0x205F || n == 0x3000

def strip (s : String) : String :=
  String.ofList ((s.toList.dropWhile isSpace).reverse.dropWhile isSpace).reverse

/-- `s.startswith(prefix)` -/
def startsWith (s pfx : String) : Bool := pfx.toList.isPrefixOf s.toList

/-- `str.lower`, up to letters whose lower case is not ASCII; the Kelvin sign is the one other
character with an ASCII lower case. -/
def lower (s : String) : String :=
  String.ofList (s.toList.map fun c => if c.toNat = 0x212A then 'k' else c.toLower)

end Aclm
