import Mathlib.Data.List.Basic
import Mathlib.Data.Set.Insert

/-! Documents that stand in one another: the routes to a document, and an expansion that opens no document twice. -/

set_option autoImplicit false

namespace Aclm

/-- Documents as the pieces they consist of: text, and documents again. Two documents with one key are the same one. -/
structure Documents (V K α : Type) where
  pieces : V → List (List α ⊕ V)
  key : V → K
  /-- What stands in the place of a document with this expansion. -/
  around : V → List α → List α

namespace Documents

variable {V K α : Type} (D : Documents V K α)

/-- The text of these pieces, each document in them replaced by its expansion. -/
inductive Expands : List (List α ⊕ V) → List α → Prop where
  | nil : Expands [] []
  | text {t : List α} {rest : List (List α ⊕ V)} {out : List α} (behind : Expands rest out) :
      Expands (.inl t :: rest) (t ++ out)
  | document {v : V} {rest : List (List α ⊕ V)} {body out : List α} (inner : Expands (D.pieces v) body)
      (behind : Expands rest out) : Expands (.inr v :: rest) (D.around v body ++ out)

/-! ### Routes -/

/-- From these pieces to a document: the place of a document among them, then the place of one among its pieces, and so
on. -/
inductive Leads : List (List α ⊕ V) → List Nat → V → Prop where
  | here {ps : List (List α ⊕ V)} {i : Nat} {u : V} (place : ps[i]? = some (.inr u)) : Leads ps [i] u
  | inside {ps : List (List α ⊕ V)} {i : Nat} {u w : V} {route : List Nat} (place : ps[i]? = some (.inr u))
      (inner : Leads (D.pieces u) route w) : Leads ps (i :: route) w

/-- Some route leads back to a document that it has come through. -/
def Cyclic (ps : List (List α ⊕ V)) : Prop :=
  ∃ route back u w, D.Leads ps route u ∧ D.Leads (D.pieces u) back w ∧ D.key w = D.key u

def keys (ps : List (List α ⊕ V)) : Set K := {k | ∃ route w, D.Leads ps route w ∧ D.key w = k}

/-- No route leads to one of these documents, and no two routes lead to the same one. -/
structure Once (seen : Set K) (ps : List (List α ⊕ V)) : Prop where
  fresh {route : List Nat} {w : V} (leads : D.Leads ps route w) : D.key w ∉ seen
  one {route route' : List Nat} {w w' : V} (leads : D.Leads ps route w) (leads' : D.Leads ps route' w')
    (same : D.key w = D.key w') : route = route'

variable {D}

theorem Leads.ne_nil {ps : List (List α ⊕ V)} {route : List Nat} {w : V} (leads : D.Leads ps route w) : route ≠ [] := by
  cases leads with
  | here place => exact List.cons_ne_nil _ _
  | inside place inner => exact List.cons_ne_nil _ _

theorem Leads.append {ps : List (List α ⊕ V)} {route back : List Nat} {u w : V} (leads : D.Leads ps route u)
    (inner : D.Leads (D.pieces u) back w) : D.Leads ps (route ++ back) w := by
  induction leads with
  | here place => exact .inside place inner
  | inside place _ ih => exact .inside place (ih inner)

theorem Leads.piece {ps : List (List α ⊕ V)} {route : List Nat} {w : V} (leads : D.Leads ps route w) :
    .inr w ∈ ps ∨ ∃ u, .inr w ∈ D.pieces u := by
  induction leads with
  | here place => exact .inl (List.mem_of_getElem? place)
  | inside place _ ih => exact .inr (ih.elim (fun member => ⟨_, member⟩) id)

/-- A set of documents that has all documents in its documents. -/
theorem Leads.within {S : V → Prop} (closed : ∀ u, S u → ∀ w, .inr w ∈ D.pieces u → S w) {ps : List (List α ⊕ V)}
    {route : List Nat} {w : V} (leads : D.Leads ps route w) (first : ∀ w, .inr w ∈ ps → S w) : S w := by
  induction leads with
  | here place => exact first _ (List.mem_of_getElem? place)
  | inside place _ ih => exact ih (closed _ (first _ (List.mem_of_getElem? place)))

theorem not_leads_nil {route : List Nat} {w : V} : ¬ D.Leads [] route w := by
  intro leads
  cases leads with
  | here place => cases place
  | inside place inner => cases place

theorem leads_cons {p : List α ⊕ V} {ps : List (List α ⊕ V)} {route : List Nat} {w : V} :
    D.Leads (p :: ps) route w ↔
      (∃ u, p = .inr u ∧ (route = [0] ∧ w = u ∨ ∃ inner, route = 0 :: inner ∧ D.Leads (D.pieces u) inner w)) ∨
        ∃ i inner, route = (i + 1) :: inner ∧ D.Leads ps (i :: inner) w := by
  constructor
  · intro leads
    cases leads with
    | @here _ i u place => cases i with
      | zero => exact .inl ⟨w, Option.some.inj place, .inl ⟨rfl, rfl⟩⟩
      | succ i => exact .inr ⟨i, [], rfl, .here place⟩
    | @inside _ i u _ inner place leads => cases i with
      | zero => exact .inl ⟨u, Option.some.inj place, .inr ⟨inner, rfl, leads⟩⟩
      | succ i => exact .inr ⟨i, inner, rfl, .inside place leads⟩
  · rintro (⟨u, rfl, ⟨rfl, rfl⟩ | ⟨inner, rfl, leads⟩⟩ | ⟨i, inner, rfl, leads⟩)
    · exact .here rfl
    · exact .inside rfl leads
    · cases leads with
      | here place => exact .here place
      | inside place leads => exact .inside place leads

/-- A document among the pieces, and what its own pieces lead to. -/
theorem Leads.head {u : V} {ps : List (List α ⊕ V)} : D.Leads (.inr u :: ps) [0] u := .here rfl

theorem Leads.into {u w : V} {ps : List (List α ⊕ V)} {route : List Nat} (leads : D.Leads (D.pieces u) route w) :
    D.Leads (.inr u :: ps) (0 :: route) w := .inside rfl leads

theorem Leads.tail {p : List α ⊕ V} {ps : List (List α ⊕ V)} {i : Nat} {route : List Nat} {w : V}
    (leads : D.Leads ps (i :: route) w) : D.Leads (p :: ps) ((i + 1) :: route) w :=
  leads_cons.mpr (.inr ⟨i, route, rfl, leads⟩)

theorem Leads.cons_tail {p : List α ⊕ V} {ps : List (List α ⊕ V)} {route : List Nat} {w : V} (leads : D.Leads ps route w) :
    ∃ i inner, route = i :: inner ∧ D.Leads (p :: ps) ((i + 1) :: inner) w := by
  cases route with
  | nil => exact absurd rfl leads.ne_nil
  | cons i inner => exact ⟨i, inner, rfl, leads.tail⟩

theorem Leads.first {p : List α ⊕ V} {route : List Nat} {w : V} (leads : D.Leads [p] route w) (ps : List (List α ⊕ V)) :
    D.Leads (p :: ps) route w := by
  rcases leads_cons.mp leads with head | ⟨i, inner, -, behind⟩
  · exact leads_cons.mpr (.inl head)
  · exact absurd behind not_leads_nil

/-- With a circle there are two routes to a document. -/
theorem Once.not_cyclic {seen : Set K} {ps : List (List α ⊕ V)} (once : D.Once seen ps) : ¬ D.Cyclic ps := by
  rintro ⟨route, back, u, w, leads, inner, same⟩
  have longer := once.one (leads.append inner) leads same
  exact inner.ne_nil (List.append_right_eq_self.mp longer)

/-! ### Piece by piece -/

theorem keys_nil : D.keys [] = ∅ :=
  Set.eq_empty_of_forall_notMem fun _ ⟨_, _, leads, _⟩ => not_leads_nil leads

theorem keys_text (t : List α) (ps : List (List α ⊕ V)) : D.keys (.inl t :: ps) = D.keys ps := by
  ext k
  constructor
  · rintro ⟨route, w, leads, same⟩
    rcases leads_cons.mp leads with ⟨u, document, _⟩ | ⟨i, inner, rfl, later⟩
    · cases document
    · exact ⟨_, w, later, same⟩
  · rintro ⟨route, w, leads, same⟩
    obtain ⟨i, inner, rfl, later⟩ := leads.cons_tail
    exact ⟨_, w, later, same⟩

theorem keys_document (u : V) (ps : List (List α ⊕ V)) :
    D.keys (.inr u :: ps) = insert (D.key u) (D.keys (D.pieces u) ∪ D.keys ps) := by
  ext k
  constructor
  · rintro ⟨route, w, leads, rfl⟩
    rcases leads_cons.mp leads with ⟨u, document, ⟨rfl, rfl⟩ | ⟨inner, rfl, within⟩⟩ | ⟨i, inner, rfl, later⟩
    · cases document
      exact .inl rfl
    · cases document
      exact .inr (.inl ⟨_, w, within, rfl⟩)
    · exact .inr (.inr ⟨_, w, later, rfl⟩)
  · rintro (rfl | ⟨route, w, leads, rfl⟩ | ⟨route, w, leads, rfl⟩)
    · exact ⟨_, u, .head, rfl⟩
    · exact ⟨_, w, leads.into, rfl⟩
    · obtain ⟨i, inner, rfl, leads⟩ := leads.cons_tail
      exact ⟨_, w, leads, rfl⟩

theorem once_nil (seen : Set K) : D.Once seen [] :=
  ⟨fun leads => absurd leads not_leads_nil, fun leads => absurd leads not_leads_nil⟩

theorem once_text {seen : Set K} (t : List α) {ps : List (List α ⊕ V)} : D.Once seen (.inl t :: ps) ↔ D.Once seen ps := by
  constructor
  · intro once
    constructor
    · intro route w leads
      obtain ⟨i, inner, -, later⟩ := leads.cons_tail
      exact once.fresh later
    · intro route route' w w' leads leads' same
      obtain ⟨i, inner, rfl, later⟩ := leads.cons_tail
      obtain ⟨j, inner', rfl, later'⟩ := leads'.cons_tail
      simpa using once.one later later' same
  · intro once
    have only {route : List Nat} {w : V} (leads : D.Leads (.inl t :: ps) route w) :
        ∃ i inner, route = (i + 1) :: inner ∧ D.Leads ps (i :: inner) w := by
      rcases leads_cons.mp leads with ⟨u, document, _⟩ | behind
      · cases document
      · exact behind
    constructor
    · intro route w leads
      obtain ⟨i, inner, -, later⟩ := only leads
      exact once.fresh later
    · intro route route' w w' leads leads' same
      obtain ⟨i, inner, rfl, later⟩ := only leads
      obtain ⟨j, inner', rfl, later'⟩ := only leads'
      simpa using once.one later later' same

/-- What a shared memory of the opened documents has to find at a document and behind it. -/
theorem once_document {seen : Set K} {u : V} {ps : List (List α ⊕ V)} :
    D.Once seen (.inr u :: ps) ↔
      D.key u ∉ seen ∧ D.Once (insert (D.key u) seen) (D.pieces u) ∧
        D.Once (insert (D.key u) seen ∪ D.keys (D.pieces u)) ps := by
  constructor
  · intro once
    refine ⟨once.fresh .head, ⟨?_, ?_⟩, ?_, ?_⟩
    · rintro route w leads (same | old)
      · exact leads.ne_nil (List.cons.inj (once.one leads.into .head same)).2
      · exact once.fresh leads.into old
    · intro route route' w w' leads leads' same
      exact (List.cons.inj (once.one leads.into leads'.into same)).2
    · rintro route w leads ((same | old) | ⟨route', w', leads', same⟩)
      · obtain ⟨i, inner, -, later⟩ := leads.cons_tail
        cases once.one later .head same
      · obtain ⟨i, inner, -, later⟩ := leads.cons_tail
        exact once.fresh later old
      · obtain ⟨i, inner, -, later⟩ := leads.cons_tail
        cases once.one later leads'.into same.symm
    · intro route route' w w' leads leads' same
      obtain ⟨i, inner, rfl, later⟩ := leads.cons_tail
      obtain ⟨j, inner', rfl, later'⟩ := leads'.cons_tail
      simpa using once.one later later' same
  · rintro ⟨new, within, behind⟩
    -- Where a route begins: at the document, inside it, or behind it.
    have parts {route : List Nat} {w : V} (leads : D.Leads (.inr u :: ps) route w) :
        (route = [0] ∧ w = u) ∨ (∃ inner, route = 0 :: inner ∧ D.Leads (D.pieces u) inner w) ∨
          ∃ i inner, route = (i + 1) :: inner ∧ D.Leads ps (i :: inner) w := by
      rcases leads_cons.mp leads with ⟨v, document, first⟩ | later
      · cases document
        exact first.imp_right .inl
      · exact .inr (.inr later)
    constructor
    · intro route w leads old
      rcases parts leads with ⟨-, rfl⟩ | ⟨inner, -, inside⟩ | ⟨i, inner, -, later⟩
      · exact new old
      · exact within.fresh inside (.inr old)
      · exact behind.fresh later (.inl (.inr old))
    · intro route route' w w' leads leads' same
      rcases parts leads with ⟨rfl, rfl⟩ | ⟨inner, rfl, inside⟩ | ⟨i, inner, rfl, later⟩ <;>
        rcases parts leads' with ⟨rfl, rfl⟩ | ⟨inner', rfl, inside'⟩ | ⟨j, inner', rfl, later'⟩
      · rfl
      · exact absurd (.inl same.symm) (within.fresh inside')
      · exact absurd (.inl (.inl same.symm)) (behind.fresh later')
      · exact absurd (.inl same) (within.fresh inside)
      · rw [within.one inside inside' same]
      · exact absurd (.inr ⟨_, _, inside, same⟩) (behind.fresh later')
      · exact absurd (.inl (.inl same)) (behind.fresh later)
      · exact absurd (.inr ⟨_, _, inside', same.symm⟩) (behind.fresh later)
      · simpa using behind.one later later' same

/-! ### An expansion that remembers what it has opened -/

inductive Stop (K : Type) where
  | tooDeep
  | again (k : K)

variable (D) in
/-- The pieces in their order; `nested` expands a document in them, given the documents opened so far. -/
def expandPieces (nested : List K → V → Except (Stop K) (List K × List α)) :
    List K → List (List α ⊕ V) → Except (Stop K) (List K × List α)
  | seen, [] => .ok (seen, [])
  | seen, .inl t :: rest => do
    let (seen, out) ← expandPieces nested seen rest
    .ok (seen, t ++ out)
  | seen, .inr v :: rest => do
    let (seen, body) ← nested seen v
    let (seen, out) ← expandPieces nested seen rest
    .ok (seen, D.around v body ++ out)

variable (D) in
/-- A document that has not been opened yet, with the number of documents that can still be opened inside one another. -/
def expand [DecidableEq K] : Nat → List K → V → Except (Stop K) (List K × List α)
  | 0, _, _ => .error .tooDeep
  | n + 1, seen, v =>
    if D.key v ∈ seen then .error (.again (D.key v)) else expandPieces D (expand n) (D.key v :: seen) (D.pieces v)

variable (D) in
/-- What the result says about the pieces. -/
structure Opens (seen : List K) (ps : List (List α ⊕ V)) (text : List α → Prop)
    (result : Except (Stop K) (List K × List α)) : Prop where
  done {seen' : List K} {out : List α} (ok : result = .ok (seen', out)) :
    D.Once {k | k ∈ seen} ps ∧ {k | k ∈ seen'} = {k | k ∈ seen} ∪ D.keys ps ∧ text out
  again {k : K} (raised : result = .error (.again k)) : ¬ D.Once {k | k ∈ seen} ps

theorem Opens.of_done {seen seen' : List K} {ps : List (List α ⊕ V)} {text : List α → Prop} {out : List α}
    (once : D.Once {k | k ∈ seen} ps) (known : {k | k ∈ seen'} = {k | k ∈ seen} ∪ D.keys ps) (spelled : text out) :
    D.Opens seen ps text (.ok (seen', out)) := by
  constructor
  · intro _ _ ok
    cases ok
    exact ⟨once, known, spelled⟩
  · intro k raised
    cases raised

theorem Opens.of_stop {seen : List K} {ps : List (List α ⊕ V)} {text : List α → Prop} {stop : Stop K}
    (no : ∀ k, stop = .again k → ¬ D.Once {k | k ∈ seen} ps) : D.Opens seen ps text (.error stop) := by
  constructor
  · intro _ _ ok
    cases ok
  · intro k raised
    cases raised
    exact no k rfl

theorem expandPieces_opens {nested : List K → V → Except (Stop K) (List K × List α)}
    (opens : ∀ seen v, D.Opens seen [.inr v] (D.Expands (D.pieces v)) (nested seen v)) (seen : List K)
    (ps : List (List α ⊕ V)) : D.Opens seen ps (D.Expands ps) (D.expandPieces nested seen ps) := by
  induction ps generalizing seen with
  | nil => exact .of_done (once_nil _) (by rw [keys_nil, Set.union_empty]) .nil
  | cons p ps ih => cases p with
    | inl t =>
      rw [expandPieces]
      cases behind : D.expandPieces nested seen ps with
      | ok result =>
        obtain ⟨once, known, text⟩ := (ih seen).done behind
        exact .of_done ((once_text t).mpr once) (by rw [keys_text, known]) (.text text)
      | error stop =>
        refine .of_stop fun k same => ?_
        rw [once_text]
        exact (ih seen).again (behind.trans (congrArg Except.error same))
    | inr v =>
      rw [expandPieces]
      cases inner : nested seen v with
      | ok result =>
        obtain ⟨opened, body⟩ := result
        obtain ⟨alone, known, text⟩ := (opens seen v).done inner
        obtain ⟨new, within, -⟩ := once_document.mp alone
        have memory : {k | k ∈ opened} = insert (D.key v) {k | k ∈ seen} ∪ D.keys (D.pieces v) := by
          rw [known, keys_document, keys_nil, Set.union_empty, Set.union_insert, Set.insert_union]
        change D.Opens seen _ _ (D.expandPieces nested opened ps >>= _)
        cases behind : D.expandPieces nested opened ps with
        | ok result =>
          obtain ⟨once, known', text'⟩ := (ih opened).done behind
          refine .of_done (once_document.mpr ⟨new, within, memory ▸ once⟩) ?_ (.document text text')
          rw [known', memory, keys_document, Set.union_insert, Set.insert_union, Set.insert_union, Set.union_assoc]
        | error stop =>
          refine .of_stop fun k same once => ?_
          exact (ih opened).again (behind.trans (congrArg Except.error same)) (memory ▸ (once_document.mp once).2.2)
      | error stop =>
        refine .of_stop fun k same once => ?_
        obtain ⟨new, within, -⟩ := once_document.mp once
        exact (opens seen v).again (inner.trans (congrArg Except.error same)) (once_document.mpr ⟨new, within, once_nil _⟩)

theorem expand_opens [DecidableEq K] (n : Nat) (seen : List K) (v : V) :
    D.Opens seen [.inr v] (D.Expands (D.pieces v)) (D.expand n seen v) := by
  induction n generalizing seen v with
  | zero => exact .of_stop fun k same => by cases same
  | succ n ih =>
    rw [expand]
    have memory : {k | k ∈ D.key v :: seen} = insert (D.key v) {k | k ∈ seen} := by
      ext k
      exact List.mem_cons
    by_cases old : D.key v ∈ seen
    · rw [if_pos old]
      exact .of_stop fun k _ once => once.fresh .head old
    · rw [if_neg old]
      have within := expandPieces_opens ih (D.key v :: seen) (D.pieces v)
      constructor
      · intro seen' out ok
        obtain ⟨once, known, text⟩ := within.done ok
        rw [memory] at once known
        refine ⟨once_document.mpr ⟨old, once, once_nil _⟩, ?_, text⟩
        rw [known, keys_document, keys_nil, Set.union_empty, Set.union_insert, Set.insert_union]
      · intro k raised once
        refine within.again raised ?_
        rw [memory]
        exact (once_document.mp once).2.1

/-! ### How deep it goes -/

variable [DecidableEq K]

/-- The number of documents in the list that have not been opened. -/
def unopened (files seen : List K) : Nat := files.countP (· ∉ seen)

theorem unopened_mono {files seen seen' : List K} (more : ∀ k ∈ seen, k ∈ seen') : unopened files seen' ≤ unopened files seen := by
  refine List.countP_mono_left fun k _ new => ?_
  simp only [decide_not, Bool.not_eq_true', decide_eq_false_iff_not] at new ⊢
  exact fun old => new (more k old)

theorem unopened_cons {files seen : List K} {k : K} (listed : k ∈ files) (new : k ∉ seen) :
    unopened files (k :: seen) < unopened files seen := by
  obtain ⟨before, behind, rfl⟩ := List.append_of_mem listed
  have front : unopened before (k :: seen) ≤ unopened before seen := unopened_mono fun _ => List.mem_cons_of_mem k
  have back : unopened behind (k :: seen) ≤ unopened behind seen := unopened_mono fun _ => List.mem_cons_of_mem k
  unfold unopened at front back ⊢
  simp only [List.countP_append, List.countP_cons, new, List.mem_cons_self, not_true_eq_false, not_false_eq_true,
    decide_true, decide_false, if_true, Bool.false_eq_true, if_false]
  omega

theorem expandPieces_deep {files : List K} {n : Nat}
    (fits : ∀ seen v, (∀ k ∈ D.keys [.inr v], k ∈ files) → unopened files seen < n → D.expand n seen v ≠ .error .tooDeep)
    {seen : List K} {ps : List (List α ⊕ V)} (listed : ∀ k ∈ D.keys ps, k ∈ files) (room : unopened files seen < n) :
    D.expandPieces (D.expand n) seen ps ≠ .error .tooDeep := by
  induction ps generalizing seen with
  | nil => nofun
  | cons p ps ih => cases p with
    | inl t =>
      rw [keys_text] at listed
      rw [expandPieces]
      have rest := ih listed room
      cases behind : D.expandPieces (D.expand n) seen ps with
      | ok result => nofun
      | error stop =>
        rintro ⟨⟩
        exact rest behind
    | inr v =>
      rw [keys_document] at listed
      rw [expandPieces]
      have first : ∀ k ∈ D.keys [.inr v], k ∈ files := by
        intro k member
        rw [keys_document, keys_nil, Set.union_empty] at member
        exact listed k (member.imp_right .inl)
      cases inner : D.expand n seen v with
      | ok result =>
        obtain ⟨opened, body⟩ := result
        obtain ⟨-, known, -⟩ := (expand_opens n seen v).done inner
        have more : ∀ k ∈ seen, k ∈ opened := fun k old => known.symm.subset (.inl old)
        have rest := ih (fun k member => listed k (.inr (.inr member))) ((unopened_mono more).trans_lt room)
        change (D.expandPieces (D.expand n) opened ps >>= _) ≠ _
        cases behind : D.expandPieces (D.expand n) opened ps with
        | ok result => nofun
        | error stop =>
          rintro ⟨⟩
          exact rest behind
      | error stop =>
        rintro ⟨⟩
        exact fits seen v first room inner

/-- A list of all documents that can be reached bounds how many of them are open at a time. -/
theorem expand_deep {files : List K} {n : Nat} {seen : List K} {v : V} (listed : ∀ k ∈ D.keys [.inr v], k ∈ files)
    (room : unopened files seen < n) : D.expand n seen v ≠ .error .tooDeep := by
  induction n generalizing seen v with
  | zero => cases room
  | succ n ih =>
    rw [expand]
    by_cases old : D.key v ∈ seen
    · rw [if_pos old]
      nofun
    · rw [if_neg old]
      rw [keys_document, keys_nil, Set.union_empty] at listed
      have fewer := unopened_cons (listed _ (.inl rfl)) old
      exact expandPieces_deep (fun _ _ => ih) (fun k member => listed k (.inr member)) (by omega)

/-- With room enough, the expansion fails exactly when some document can be reached along two routes. -/
theorem expand_iff {files : List K} {n : Nat} {v : V} (listed : ∀ k ∈ D.keys [.inr v], k ∈ files)
    (room : files.length < n) :
    (D.Once ∅ [.inr v] → ∃ seen out, D.expand n [] v = .ok (seen, out) ∧ D.Expands (D.pieces v) out) ∧
      (¬ D.Once ∅ [.inr v] → ∃ k, D.expand n [] v = .error (.again k)) := by
  have empty : {k : K | k ∈ []} = ∅ := Set.eq_empty_of_forall_notMem fun _ => List.not_mem_nil
  have opens := expand_opens (D := D) n [] v
  have deep : D.expand n [] v ≠ .error .tooDeep := expand_deep listed (List.countP_le_length.trans_lt room)
  cases result : D.expand n [] v with
  | ok found =>
    obtain ⟨once, -, text⟩ := opens.done result
    exact ⟨fun _ => ⟨_, _, rfl, text⟩, fun twice => absurd (empty ▸ once) twice⟩
  | error stop =>
    cases stop with
    | tooDeep => exact absurd result deep
    | again k =>
      have twice := opens.again result
      exact ⟨fun once => absurd (empty ▸ once) twice, fun _ => ⟨k, rfl⟩⟩

end Documents

end Aclm
