import Mathlib.Data.List.Basic
import Mathlib.Data.Nat.Init
import Mathlib.Logic.Function.Iterate

/-! Items that are replaced by other items until none can be: in passes over the whole list, every replacement with a
number of its own, or one after the other, each with all that comes of it. -/

set_option autoImplicit false

namespace Aclm.Expansion

variable {α : Type} (rule : α → Option (Nat → List α))

/-- One pass: every item with a rule is replaced, with the next number. -/
def pass : Nat → List α → Nat × List α
  | n, [] => (n, [])
  | n, a :: rest => match rule a with
    | some f => ((pass (n + 1) rest).1, f (n + 1) ++ (pass (n + 1) rest).2)
    | none => ((pass n rest).1, a :: (pass n rest).2)

/-- No item has a rule. -/
def Normal (as : List α) : Prop := ∀ a ∈ as, rule a = none

instance (as : List α) : Decidable (Normal rule as) := inferInstanceAs (Decidable (∀ a ∈ as, _))

/-- At most so many passes, the last of which must find nothing to do. -/
def loop : Nat → Nat × List α → Option (List α)
  | 0, _ => none
  | k + 1, s => if Normal rule s.2 then some s.2 else loop k (pass rule s.1 s.2)

/-- The items after a number of passes. -/
def after (k : Nat) (s : Nat × List α) : Nat × List α := (fun s => pass rule s.1 s.2)^[k] s

/-- Every item is replaced, with some number, by all that comes of it. -/
inductive Expands : List α → List α → Prop where
  | nil : Expands [] []
  | keep {a : α} {rest out : List α} (stays : rule a = none) (more : Expands rest out) : Expands (a :: rest) (a :: out)
  | replace {a : α} {f : Nat → List α} {rest out out' : List α} (found : rule a = some f) (n : Nat)
      (inner : Expands (f n) out) (more : Expands rest out') : Expands (a :: rest) (out ++ out')

/-- Whatever the numbers, replacing the item comes to an item of the kind `T`. -/
inductive Leads (T : α → Prop) : α → Prop where
  | here {a : α} (target : T a) : Leads T a
  | through {a : α} {f : Nat → List α} (found : rule a = some f) (next : Nat → α) (member : ∀ n, next n ∈ f n)
      (leads : ∀ n, Leads T (next n)) : Leads T a

/-- An item of the kind `T` always comes to another one. -/
def Reinvokes (T : α → Prop) : Prop :=
  ∀ a, T a → ∃ f, rule a = some f ∧ ∀ n, ∃ b ∈ f n, Leads rule T b

/-- The rule for items with their generations. -/
def tagged : Nat × α → Option (Nat → List (Nat × α)) :=
  fun a => (rule a.2).map fun f n => (f n).map (a.1 + 1, ·)

/-- The item comes up in the generation, when passes are made over `as` again and again. -/
def Arises (as : List α) (g : Nat) (a : α) : Prop := ∃ k, (g, a) ∈ (after (tagged rule) k (0, as.map (0, ·))).2

variable {rule} {as bs : List α} {a b : α} {n k : Nat}

/-! ### One pass -/

theorem pass_normal (normal : Normal rule as) : pass rule n as = (n, as) := by
  induction as with
  | nil => rfl
  | cons a rest ih =>
    simp [pass, normal a List.mem_cons_self, ih fun b member => normal b (List.mem_cons_of_mem _ member)]

theorem mem_pass (member : b ∈ (pass rule n as).2) :
    (b ∈ as ∧ rule b = none) ∨ ∃ a ∈ as, ∃ f m, rule a = some f ∧ b ∈ f m := by
  induction as generalizing n with
  | nil => cases member
  | cons a rest ih =>
    have later {m : Nat} (member : b ∈ (pass rule m rest).2) :
        (b ∈ a :: rest ∧ rule b = none) ∨ ∃ c ∈ a :: rest, ∃ f m, rule c = some f ∧ b ∈ f m := by
      rcases ih member with ⟨inside, none⟩ | ⟨c, inside, found⟩
      · exact .inl ⟨List.mem_cons_of_mem _ inside, none⟩
      · exact .inr ⟨c, List.mem_cons_of_mem _ inside, found⟩
    unfold pass at member
    split at member
    · next f found =>
        rcases List.mem_append.mp member with here | member
        · exact .inr ⟨a, List.mem_cons_self, f, _, found, here⟩
        · exact later member
    · next none =>
        rcases List.mem_cons.mp member with rfl | member
        · exact .inl ⟨List.mem_cons_self, none⟩
        · exact later member

/-- Some number is used for every item that is replaced. -/
theorem pass_children {f : Nat → List α} (member : a ∈ as) (found : rule a = some f) :
    ∃ m, ∀ b ∈ f m, b ∈ (pass rule n as).2 := by
  induction as generalizing n with
  | nil => cases member
  | cons c rest ih =>
    unfold pass
    rcases List.mem_cons.mp member with rfl | member
    · rw [found]
      exact ⟨n + 1, fun b inside => List.mem_append_left _ inside⟩
    · split
      · obtain ⟨m, inside⟩ := ih member (n := n + 1)
        exact ⟨m, fun b child => List.mem_append_right _ (inside b child)⟩
      · obtain ⟨m, inside⟩ := ih member (n := n)
        exact ⟨m, fun b child => List.mem_cons_of_mem _ (inside b child)⟩

/-! ### Passes and recursion -/

theorem Expands.of_normal (normal : Normal rule as) : Expands rule as as := by
  induction as with
  | nil => exact .nil
  | cons a rest ih =>
    exact .keep (normal a List.mem_cons_self) (ih fun b member => normal b (List.mem_cons_of_mem _ member))

theorem Expands.append_inv {out : List α} (expands : Expands rule (as ++ bs) out) :
    ∃ front back, out = front ++ back ∧ Expands rule as front ∧ Expands rule bs back := by
  induction as generalizing out with
  | nil => exact ⟨[], out, rfl, .nil, expands⟩
  | cons a rest ih =>
    cases expands with
    | keep stays more =>
      obtain ⟨front, back, rfl, first, second⟩ := ih more
      exact ⟨a :: front, back, rfl, .keep stays first, second⟩
    | @replace _ _ _ inner' _ found n inner more =>
      obtain ⟨front, back, rfl, first, second⟩ := ih more
      exact ⟨inner' ++ front, back, (List.append_assoc ..).symm, .replace found n inner first, second⟩

/-- What comes of the items after a pass comes of the items before it. -/
theorem Expands.of_pass {out : List α} (expands : Expands rule (pass rule n as).2 out) : Expands rule as out := by
  induction as generalizing n out with
  | nil => exact expands
  | cons a rest ih =>
    unfold pass at expands
    split at expands
    · next f found =>
        obtain ⟨front, back, rfl, first, second⟩ := expands.append_inv
        exact .replace found _ first (ih second)
    · next none =>
        cases expands with
        | keep _ more => exact .keep none (ih more)
        | replace found => rw [none] at found; cases found

theorem loop_expands {s : Nat × List α} {out : List α} (done : loop rule k s = some out) :
    Normal rule out ∧ Expands rule s.2 out := by
  induction k generalizing s with
  | zero => cases done
  | succ k ih =>
    unfold loop at done
    split at done
    · next normal =>
        cases done
        exact ⟨normal, .of_normal normal⟩
    · obtain ⟨normal, expands⟩ := ih done
      exact ⟨normal, expands.of_pass⟩

/-! ### Generations -/

theorem after_succ (k : Nat) (s : Nat × List α) : after rule (k + 1) s = pass rule (after rule k s).1 (after rule k s).2 :=
  Function.iterate_succ_apply' _ _ _

theorem loop_isSome {s : Nat × List α} : (loop rule k s).isSome = true ↔ ∃ j < k, Normal rule (after rule j s).2 := by
  induction k generalizing s with
  | zero => simp [loop]
  | succ k ih =>
    unfold loop
    split
    · next normal => exact ⟨fun _ => ⟨0, Nat.succ_pos k, normal⟩, fun _ => rfl⟩
    · next more =>
        rw [ih]
        constructor
        · rintro ⟨j, small, normal⟩
          exact ⟨j + 1, Nat.succ_lt_succ small, normal⟩
        · rintro ⟨j, small, normal⟩
          cases j with
          | zero => exact absurd normal more
          | succ j => exact ⟨j, Nat.lt_of_succ_lt_succ small, normal⟩

theorem after_of_normal {s : Nat × List α} {j : Nat} (normal : Normal rule (after rule j s).2) (le : j ≤ k) :
    after rule k s = after rule j s := by
  induction k, le using Nat.le_induction with
  | base => rfl
  | succ k _ ih => rw [after_succ, ih, pass_normal normal]

theorem tagged_none : tagged rule (k, a) = none ↔ rule a = none := Option.map_eq_none_iff

/-- Without the generations the passes are the same. -/
theorem pass_tagged (n : Nat) (ts : List (Nat × α)) :
    (pass (tagged rule) n ts).1 = (pass rule n (ts.map Prod.snd)).1 ∧
      (pass (tagged rule) n ts).2.map Prod.snd = (pass rule n (ts.map Prod.snd)).2 := by
  induction ts generalizing n with
  | nil => exact ⟨rfl, rfl⟩
  | cons t rest ih =>
    cases found : rule t.2 with
    | none =>
      obtain ⟨count, items⟩ := ih n
      simp [pass, tagged, found, ← items, count]
    | some f =>
      obtain ⟨count, items⟩ := ih (n + 1)
      simp [pass, tagged, found, ← items, count, Function.comp_def]

theorem after_tagged (k n : Nat) (ts : List (Nat × α)) :
    (after (tagged rule) k (n, ts)).1 = (after rule k (n, ts.map Prod.snd)).1 ∧
      (after (tagged rule) k (n, ts)).2.map Prod.snd = (after rule k (n, ts.map Prod.snd)).2 := by
  induction k with
  | zero => exact ⟨rfl, rfl⟩
  | succ k ih =>
    obtain ⟨count, items⟩ := ih
    rw [after_succ, after_succ, ← count, ← items]
    exact pass_tagged _ _

/-- After so many passes only the newest items can have rules. -/
theorem after_generation (k : Nat) {t : Nat × α} (member : t ∈ (after (tagged rule) k (0, as.map (0, ·))).2) :
    t.1 ≤ k ∧ (rule t.2 ≠ none → t.1 = k) := by
  induction k generalizing t with
  | zero =>
    obtain ⟨a, -, rfl⟩ := List.mem_map.mp member
    exact ⟨Nat.le_refl _, fun _ => rfl⟩
  | succ k ih =>
    rw [after_succ] at member
    rcases mem_pass member with ⟨inside, none⟩ | ⟨c, inside, f, m, found, child⟩
    · exact ⟨Nat.le_succ_of_le (ih inside).1, fun more => absurd (tagged_none.mp none) more⟩
    · obtain ⟨f', rule', rfl⟩ := Option.map_eq_some_iff.mp found
      obtain ⟨b, -, rfl⟩ := List.mem_map.mp child
      have generation := (ih inside).2 (by simp [rule'])
      exact ⟨by simp [generation], fun _ => by simp [generation]⟩

theorem mem_after_iff (k : Nat) : a ∈ (after rule k (0, as)).2 ↔
    ∃ g, (g, a) ∈ (after (tagged rule) k (0, as.map (0, ·))).2 := by
  have items := (@after_tagged α rule k 0 (as.map (0, ·))).2
  rw [List.map_map, show (Prod.snd ∘ fun a : α => ((0 : Nat), a)) = id from rfl, List.map_id] at items
  rw [← items]
  simp

/-- The loop ends in time exactly when no item of a late generation can be replaced. -/
theorem loop_isSome_iff (k : Nat) : (loop rule (k + 1) (0, as)).isSome = true ↔
    ∀ g a, Arises rule as g a → k ≤ g → rule a = none := by
  rw [loop_isSome]
  constructor
  · rintro ⟨j, small, normal⟩ g a ⟨i, member⟩ late
    by_contra more
    have generation := (after_generation i member).2 more
    have same := after_of_normal normal (show j ≤ i by omega)
    exact more (normal a (same ▸ (mem_after_iff i).mpr ⟨g, member⟩))
  · intro none
    refine ⟨k, Nat.lt_succ_self k, fun a member => ?_⟩
    obtain ⟨g, member⟩ := (mem_after_iff k).mp member
    by_contra more
    have generation : g = k := (after_generation k member).2 more
    exact more (none g a ⟨k, member⟩ (Nat.le_of_eq generation.symm))

/-! ### Replacements without an end -/

theorem Leads.next {T : α → Prop} (reinvokes : Reinvokes rule T) (leads : Leads rule T a) :
    ∃ f, rule a = some f ∧ ∀ n, ∃ b ∈ f n, Leads rule T b := by
  cases leads with
  | here target => exact reinvokes a target
  | through found next member leads => exact ⟨_, found, fun n => ⟨next n, member n, leads n⟩⟩

/-- An item that always comes to itself again keeps the loop from ending. -/
theorem loop_eq_none {T : α → Prop} (reinvokes : Reinvokes rule T) {g : Nat} (arises : Arises rule as g a) (target : T a)
    (k : Nat) : loop rule k (0, as) = none := by
  obtain ⟨i, member⟩ := arises
  have start := (mem_after_iff i).mpr ⟨g, member⟩
  have forever (j : Nat) (late : i ≤ j) : ∃ b ∈ (after rule j (0, as)).2, Leads rule T b := by
    induction j, late using Nat.le_induction with
    | base => exact ⟨a, start, .here target⟩
    | succ j _ ih =>
      obtain ⟨b, inside, leads⟩ := ih
      obtain ⟨f, found, children⟩ := leads.next reinvokes
      obtain ⟨m, kept⟩ := pass_children (n := (after rule j (0, as)).1) inside found
      obtain ⟨c, child, onward⟩ := children m
      exact ⟨c, after_succ j _ ▸ kept c child, onward⟩
  by_contra some
  obtain ⟨j, -, normal⟩ := loop_isSome.mp (Option.isSome_iff_ne_none.mpr some)
  obtain ⟨b, inside, leads⟩ := forever (max i j) (Nat.le_max_left i j)
  obtain ⟨f, found, -⟩ := leads.next reinvokes
  rw [after_of_normal normal (Nat.le_max_right i j)] at inside
  rw [normal b inside] at found
  cases found

end Aclm.Expansion
