import Aclm.Codegen.Threads

/-! How many children are done: exactly the number counted where they do not meet at the counter, and never fewer than
that. -/

set_option autoImplicit false

namespace Aclm.Codegen.Threads

open X64 (Word Reg Cpu Cond Memory)
open X64.Memory (Separate)
open Encoder

variable {L : Listing}

/-! ### Runs in which the threads do not meet at the counter -/

/-- A child that loads the counter does so while no other child is between its load and its store. -/
def Ordered (turn : Turn) (s : System) : Prop :=
  match turn with
  | .main => True
  | .child k => ∀ old, s.children[k]? = some old → old.loads = true →
      ∀ j other, j ≠ k → s.children[j]? = some other → other.between = false

theorem Ordered.others {m : Memory} {a : Main} {before after : List Child} {old : Child} {n : Nat}
    (ordered : Ordered (.child before.length) ⟨m, a, before ++ old :: after, n⟩) (loads : old.loads = true) :
    before.countP Child.between = 0 ∧ after.countP Child.between = 0 := by
  have apart := ordered old (by simp) loads
  constructor
  · rw [List.countP_eq_zero]
    intro other member
    obtain ⟨j, small, rfl⟩ := List.mem_iff_getElem.mp member
    simpa using apart j before[j] (by omega) (by simp [List.getElem?_append_left small])
  · rw [List.countP_eq_zero]
    intro other member
    obtain ⟨j, small, rfl⟩ := List.mem_iff_getElem.mp member
    have place : (before ++ old :: after)[before.length + (j + 1)]? = some after[j] := by
      rw [List.getElem?_append_right (by omega)]
      simp
    simpa using apart _ after[j] (by omega) place

/-- Away from the load and the store a child has nothing of the counter. -/
theorem ChildAt.of_not_between {P : Word → Prop} {child : Child} (here : ChildAt L P child)
    (outside : child.between = false) (Q : Word → Prop) : ChildAt L Q child := by
  cases child with
  | working => trivial
  | signalling rest c =>
    cases here with
    | start => exact .start c
    | pointed rdi => exact .pointed rdi
    | loaded => cases outside
    | added => cases outside
    | stored later => exact .stored later

/-- The counter is the number of children that have stored to it, and at most one child is about to store to it. -/
structure Exact (L : Listing) (s : System) : Prop where
  main : MainAt L (fun _ => True) s.mem s.spawned s.main
  done : doneCount L s.mem = BitVec.ofNat 64 s.completed
  children : ∀ child ∈ s.children, ChildAt L (· = doneCount L s.mem) child
  lone : s.children.countP Child.between ≤ 1

theorem Exact.step {turn : Turn} {s t : System} (exact : Exact L s) (ordered : Ordered turn s) (once : Step L turn s t) :
    Exact L t := by
  obtain ⟨main, done, children, lone⟩ := exact
  cases once with
  | main once =>
    obtain ⟨same, place⟩ := once.effect main trivial
    refine ⟨place, same.trans done, fun child member => ?_, lone⟩
    rw [same]
    exact children child member
  | spawn c clear =>
    refine ⟨.start clear ?_, ?_, fun child member => ?_, ?_⟩
    · rw [show spawnCount L _ = _ from main, BitVec.ofNat_add]
      rfl
    · simpa [System.completed, Child.stored] using done
    · rcases List.mem_append.mp member with old | new
      · exact children child old
      · rw [List.mem_singleton.mp new]
        trivial
    · simpa [Child.between] using lone
  | noSpawn c clear =>
    refine ⟨.start clear ?_, done, children, lone⟩
    rw [show spawnCount L _ = _ from main, BitVec.ofNat_add]
    rfl
  | @child m m' a before after old new n once =>
    simp only [List.mem_append, List.mem_cons, List.countP_append, List.countP_cons, System.completed] at *
    cases once.effect (children old (.inr (.inl rfl))) with
    | quiet kept there stored between =>
      refine ⟨main.keep kept.2, ?_, fun child member => ?_, ?_⟩
      · simpa [kept.1, stored, System.completed, List.countP_cons] using done
      · rw [kept.1]
        rcases List.mem_append.mp member with front | rear
        · exact children child (.inl front)
        · rcases List.mem_cons.mp rear with rfl | rear
          · exact there
          · exact children child (.inr (.inr rear))
      · simpa [between, List.countP_cons] using lone
    | loads same next before' stored there =>
      -- Ordered turns: a child loads only while no other one is between its load and its store.
      obtain ⟨none, none'⟩ := ordered.others next
      subst same
      refine ⟨main, ?_, fun child member => ?_, ?_⟩
      · simpa [before', stored, System.completed, List.countP_cons] using done
      · rcases List.mem_append.mp member with front | rear
        · exact children child (.inl front)
        · rcases List.mem_cons.mp rear with rfl | rear
          · exact there _ rfl
          · exact children child (.inr (.inr rear))
      · simp only [List.countP_append, List.countP_cons, none, none']
        split <;> omega
    | @stores w had cell between before' stored after' there =>
      -- This child is the one between, so the count it has loaded is still the count.
      simp only [between, if_true] at lone
      have none : before.countP Child.between = 0 := by omega
      have none' : after.countP Child.between = 0 := by omega
      rw [List.countP_eq_zero] at none none'
      subst cell
      refine ⟨main.keep (spawnCount_done m _), ?_, fun child member => ?_, ?_⟩
      · simp only [before', Bool.false_eq_true, if_false] at done
        simp only [System.completed, doneCount_done, had, done, List.countP_append, List.countP_cons, stored, if_true]
        simp [BitVec.ofNat_add, BitVec.add_assoc]
      · rcases List.mem_append.mp member with front | rear
        · exact (children child (.inl front)).of_not_between (by simpa using none child front) _
        · rcases List.mem_cons.mp rear with rfl | rear
          · exact there _
          · exact (children child (.inr (.inr rear))).of_not_between (by simpa using none' child rear) _
      · simp only [List.countP_append, List.countP_cons, after', Bool.false_eq_true, if_false]
        omega

theorem Starts.exact {s : System} (starts : Starts L s) : Exact L s := by
  obtain ⟨main, children, spawned, done, spawns⟩ := starts
  refine ⟨?_, ?_, ?_, ?_⟩
  · rw [main, spawned]
    exact spawns
  · simpa [System.completed, children] using done
  · simp [children]
  · simp [children]

def OrderedStep (L : Listing) (s t : System) : Prop := ∃ turn, Step L turn s t ∧ Ordered turn s

theorem Exact.run {s t : System} (exact : Exact L s) (run : Relation.ReflTransGen (OrderedStep L) s t) : Exact L t := by
  induction run with
  | refl => exact exact
  | tail _ once ih =>
    obtain ⟨turn, step, ordered⟩ := once
    exact ih.step ordered step

/-- In a run in which no child loads the counter while another is about to store to it, no completion is lost. -/
theorem done_count_exact {s t : System} (starts : Starts L s) (run : Relation.ReflTransGen (OrderedStep L) s t)
    (few : t.children.length < 2 ^ 64) : (doneCount L t.mem).toNat = t.completed := by
  have below : t.completed ≤ t.children.length := List.countP_le_length
  rw [(starts.exact.run run).done, BitVec.toNat_ofNat, Nat.mod_eq_of_lt (by omega)]

/-! ### All runs -/

def AnyStep (L : Listing) (s t : System) : Prop := ∃ turn, Step L turn s t

def Steps (L : Listing) : System → System → Prop := Relation.ReflTransGen (AnyStep L)

/-- Neither the counter nor what a child has loaded of it exceeds the number of children that have stored to it. -/
structure Bounded (L : Listing) (s : System) : Prop where
  main : MainAt L (fun w => w.toNat ≤ s.completed) s.mem s.spawned s.main
  done : (doneCount L s.mem).toNat ≤ s.completed
  children : ∀ child ∈ s.children, ChildAt L (fun w => w.toNat ≤ s.completed) child
  number : s.children.length ≤ s.spawned

theorem Starts.bounded {s : System} (starts : Starts L s) : Bounded L s := by
  obtain ⟨main, children, spawned, done, spawns⟩ := starts
  refine ⟨?_, ?_, ?_, ?_⟩
  · rw [main, spawned]
    exact spawns
  · simp [done]
  · simp [children]
  · simp [children]

theorem Bounded.step {turn : Turn} {s t : System} (bounded : Bounded L s) (once : Step L turn s t) : Bounded L t := by
  obtain ⟨main, done, children, number⟩ := bounded
  cases once with
  | main once =>
    obtain ⟨same, place⟩ := once.effect main done
    exact ⟨place, by rw [same]; exact done, children, number⟩
  | @spawn m cs n c clear =>
    have same : System.completed ⟨m, .counting countSpawn c, cs ++ [.working], n + 1⟩ =
        System.completed ⟨m, .working, cs, n⟩ := by
      simp [System.completed, Child.stored]
    refine ⟨.start clear ?_, same ▸ done, fun child member => ?_, ?_⟩
    · rw [show spawnCount L _ = _ from main, BitVec.ofNat_add]
      rfl
    · rw [same]
      rcases List.mem_append.mp member with old | new
      · exact children child old
      · rw [List.mem_singleton.mp new]
        trivial
    · simpa using number
  | noSpawn c clear =>
    refine ⟨.start clear ?_, done, children, Nat.le_succ_of_le number⟩
    rw [show spawnCount L _ = _ from main, BitVec.ofNat_add]
    rfl
  | @child m m' a before after old new n once =>
    have effect := once.effect (children old (by simp))
    have length : (before ++ new :: after).length ≤ n := by simpa using number
    -- The number of stores does not go down, so that what was below it stays below it.
    have grows (up : old.stored = true → new.stored = true) :
        System.completed ⟨m, a, before ++ old :: after, n⟩ ≤ System.completed ⟨m', a, before ++ new :: after, n⟩ := by
      simp only [System.completed, List.countP_append, List.countP_cons]
      cases h : old.stored <;> cases h' : new.stored <;> simp [h, h'] at up ⊢
    have others (up : old.stored = true → new.stored = true)
        (there : ChildAt L (fun w => w.toNat ≤ System.completed ⟨m', a, before ++ new :: after, n⟩) new) :
        ∀ child ∈ before ++ new :: after,
          ChildAt L (fun w => w.toNat ≤ System.completed ⟨m', a, before ++ new :: after, n⟩) child := by
      intro child member
      rcases List.mem_append.mp member with front | rear
      · exact (children child (by simp [front])).mono fun w below => below.trans (grows up)
      · rcases List.mem_cons.mp rear with rfl | rear
        · exact there
        · exact (children child (by simp [rear])).mono fun w below => below.trans (grows up)
    cases effect with
    | quiet kept there stored between =>
      have up : old.stored = true → new.stored = true := fun h => stored.trans h
      exact ⟨(main.keep kept.2).mono fun w below => below.trans (grows up), by rw [kept.1]; exact done.trans (grows up),
        others up (there.mono fun w below => below.trans (grows up)), length⟩
    | loads same next before' stored there =>
      subst same
      have up : old.stored = true → new.stored = true := fun h => by rw [before'] at h; cases h
      exact ⟨main.mono fun w below => below.trans (grows up), done.trans (grows up),
        others up (there _ (done.trans (grows up))), length⟩
    | @stores w had cell between before' stored after' there =>
      have up : old.stored = true → new.stored = true := fun _ => stored
      have one : System.completed ⟨m', a, before ++ new :: after, n⟩ =
          System.completed ⟨m, a, before ++ old :: after, n⟩ + 1 := by
        simp only [System.completed, List.countP_append, List.countP_cons, before', stored]
        simp [Nat.add_assoc]
      subst cell
      refine ⟨(main.keep (spawnCount_done m _)).mono fun w below => below.trans (grows up), ?_,
        others up (there _), length⟩
      rw [one, doneCount_done]
      have successor : (w + 1).toNat ≤ w.toNat + 1 := by bv_omega
      omega

theorem Bounded.run {s t : System} (bounded : Bounded L s) (run : Steps L s t) : Bounded L t := by
  induction run with
  | refl => exact bounded
  | tail _ once ih =>
    obtain ⟨turn, step⟩ := once
    exact ih.step step

/-- Where `thread:join_all` has found as many threads done as were spawned, all children have stored to the counter. -/
theorem join_all_complete {s t : System} (starts : Starts L s) (run : Steps L s t) (few : t.spawned < 2 ^ 64)
    (passed : t.main = .passed) : ∀ child ∈ t.children, child.stored = true := by
  obtain ⟨main, -, -, number⟩ := starts.bounded.run run
  rw [passed] at main
  obtain ⟨-, w, below, enough⟩ := main
  have spawned : t.spawned ≤ w.toNat := by bv_omega
  have all : t.completed = t.children.length :=
    Nat.le_antisymm List.countP_le_length (number.trans (spawned.trans below))
  exact List.countP_eq_length.mp all

/-! ### Some runs -/

theorem OrderedStep.any {s t : System} (once : OrderedStep L s t) : AnyStep L s t :=
  let ⟨turn, step, _⟩ := once
  ⟨turn, step⟩

theorem Steps.of_ordered {s t : System} (run : Relation.ReflTransGen (OrderedStep L) s t) : Steps L s t :=
  Relation.ReflTransGen.mono (fun _ _ once => once.any) _ _ run

/-- Straight-line calls are carried out one at a time, in whatever thread they stand. -/
theorem steps_of_effects {R : System → System → Prop} {place : Memory → List Call → Cpu → System}
    (lift : ∀ m m' calls rest c d, Advance L m calls c m' rest d → R (place m calls c) (place m' rest d))
    {calls later : List Call} (plain : .syscall ∉ calls) {m : Memory} {c d : Cpu}
    (ran : effects L.env L.address calls (c.setMem m) = some d) :
    ∃ e, e.reg = d.reg ∧ e.flags = d.flags ∧ Relation.ReflTransGen R (place m (calls ++ later) c) (place d.mem later e) := by
  induction calls generalizing m c with
  | nil =>
    cases ran
    exact ⟨c, rfl, rfl, .refl⟩
  | cons call calls ih =>
    obtain ⟨first, rest⟩ := List.ne_and_not_mem_of_not_mem_cons plain
    obtain ⟨k, head, tail⟩ := Option.bind_eq_some_iff.mp ran
    obtain ⟨e, regs, flags, more⟩ := @ih rest k.mem k tail
    exact ⟨e, regs, flags, .head (lift _ _ _ _ _ _ (.call (Ne.symm first) head)) more⟩

theorem orderedStep_main {m m' : Memory} {a a' : Main} (cs : List Child) (n : Nat) (once : MainStep L m a m' a') :
    OrderedStep L ⟨m, a, cs, n⟩ ⟨m', a', cs, n⟩ :=
  ⟨.main, .main once, trivial⟩

/-- Any number of children, none of which has done anything yet. -/
theorem exists_spawned {s : System} (starts : Starts L s) (n : Nat) :
    ∃ m, Relation.ReflTransGen (OrderedStep L) s ⟨m, .working, List.replicate n .working, n⟩ := by
  induction n with
  | zero =>
    obtain ⟨m, main, children, spawned⟩ := s
    obtain ⟨rfl, rfl, rfl, -, -⟩ := starts
    exact ⟨m, .refl⟩
  | succ n ih =>
    obtain ⟨m, run⟩ := ih
    obtain ⟨cs, more⟩ : ∃ cs, List.replicate n Child.working ++ [.working] = cs := ⟨_, rfl⟩
    let c := Cpu.filled (L.address threadFutex)
    have clear : MainClear L c := by
      change Separate (L.address threadFutex - 8) 8 (L.address threadFutex) 24
      constructor <;> bv_omega
    have spawn : OrderedStep L ⟨m, .working, List.replicate n .working, n⟩ ⟨m, .counting countSpawn c, cs, n + 1⟩ :=
      ⟨.main, more ▸ .spawn c clear, trivial⟩
    obtain ⟨d, ran⟩ : ∃ d, effects L.env L.address countSpawn (c.setMem m) = some d :=
      ⟨_, by simp [countSpawn, countUp]; rfl⟩
    obtain ⟨e, -, -, counts⟩ := @steps_of_effects L (OrderedStep L) (fun m calls c => ⟨m, .counting calls c, cs, n + 1⟩)
      (fun m m' calls rest c d once => orderedStep_main cs _ (.count once)) countSpawn [] (by decide) m c d ran
    refine ⟨d.mem, ?_⟩
    rw [List.replicate_succ', more]
    exact ((run.tail spawn).trans counts).tail (orderedStep_main cs _ .counted)

/-- Before a child has done anything the counters tell how many there are. -/
theorem spawned_counts {s : System} (starts : Starts L s) {m : Memory} {n : Nat}
    (run : Relation.ReflTransGen (OrderedStep L) s ⟨m, .working, List.replicate n .working, n⟩) :
    doneCount L m = 0 ∧ spawnCount L m = BitVec.ofNat 64 n := by
  obtain ⟨main, done, -, -⟩ := starts.exact.run run
  refine ⟨?_, main⟩
  simpa [System.completed, List.countP_replicate, Child.stored] using done

/-- `thread:join_all` is left at once where the counters agree. -/
theorem join_run {m : Memory} (cs : List Child) (n : Nat) (agree : spawnCount L m = doneCount L m) :
    Steps L ⟨m, .working, cs, n⟩ ⟨m, .passed, cs, n⟩ := by
  let c := Cpu.filled 0
  obtain ⟨d, ran, mem, flags⟩ : ∃ d, effects L.env L.address joinTest (c.setMem m) = some d ∧ d.mem = m ∧
      Cond.ae.holds d.flags = true := by
    refine ⟨_, by simp [joinTest, load64]; rfl, rfl, ?_⟩
    have same : m.load (L.address threadFutex + 16#64) 8 = m.load (L.address threadFutex) 8 := agree
    simp [X64.holds_ae, same]
  obtain ⟨e, -, same, tests⟩ := @steps_of_effects L (AnyStep L) (fun m calls c => ⟨m, .testing calls c, cs, n⟩)
    (fun m m' calls rest c d once => ⟨.main, .main (.test once)⟩) joinTest [] (by decide) m c d ran
  rw [mem] at tests
  have joins : AnyStep L ⟨m, .working, cs, n⟩ ⟨m, .testing joinTest c, cs, n⟩ := ⟨.main, .main (.join c)⟩
  have pass : AnyStep L ⟨m, .testing [] e, cs, n⟩ ⟨m, .passed, cs, n⟩ := ⟨.main, .main (.pass (same ▸ flags))⟩
  exact (Relation.ReflTransGen.head joins tests).tail pass

section Child

variable {R : System → System → Prop} {a : Main} {before after : List Child} {n : Nat}

/-- The first half of the code that counts a child: it has loaded the counter. -/
theorem child_loads (lift : ∀ m m' old new, ChildStep L m old m' new →
      R ⟨m, a, before ++ old :: after, n⟩ ⟨m', a, before ++ new :: after, n⟩) (m : Memory) :
    ∃ c, c.reg .rdi = L.address threadFutex ∧ c.reg .rax = doneCount L m ∧ Relation.ReflTransGen R
      ⟨m, a, before ++ .working :: after, n⟩ ⟨m, a, before ++ .signalling (signalDone.drop 2) c :: after, n⟩ := by
  let c := Cpu.filled 0
  obtain ⟨d, ran, mem, rdi, rax⟩ : ∃ d, effects L.env L.address (signalDone.take 2) (c.setMem m) = some d ∧ d.mem = m ∧
      d.reg .rdi = L.address threadFutex ∧ d.reg .rax = doneCount L m :=
    ⟨_, by simp [signalDone, countUp]; rfl, rfl, by simp, by simp [doneCount]⟩
  obtain ⟨e, regs, -, loads⟩ := @steps_of_effects L R
    (fun m calls c => ⟨m, a, before ++ .signalling calls c :: after, n⟩)
    (fun m m' calls rest c d once => lift _ _ _ _ (.advance once)) (signalDone.take 2) (signalDone.drop 2) (by decide)
    m c d ran
  rw [mem] at loads
  exact ⟨e, regs ▸ rdi, regs ▸ rax, .head (lift _ _ _ _ (.signal c)) loads⟩

/-- The second half: it stores the successor of what it has loaded. -/
theorem child_stores (lift : ∀ m m' old new, ChildStep L m old m' new →
      R ⟨m, a, before ++ old :: after, n⟩ ⟨m', a, before ++ new :: after, n⟩) (m : Memory) {c : Cpu}
    (rdi : c.reg .rdi = L.address threadFutex) :
    ∃ e, Relation.ReflTransGen R ⟨m, a, before ++ .signalling (signalDone.drop 2) c :: after, n⟩
      ⟨m.store (L.address threadFutex) 8 (c.reg .rax + 1), a, before ++ .signalling (signalDone.drop 4) e :: after, n⟩ := by
  obtain ⟨d, ran, mem⟩ : ∃ d, effects L.env L.address ((signalDone.drop 2).take 2) (c.setMem m) = some d ∧
      d.mem = m.store (L.address threadFutex) 8 (c.reg .rax + 1) :=
    ⟨_, by simp [signalDone, countUp]; rfl, by simp [rdi]⟩
  obtain ⟨e, -, -, stores⟩ := @steps_of_effects L R
    (fun m calls c => ⟨m, a, before ++ .signalling calls c :: after, n⟩)
    (fun m m' calls rest c d once => lift _ _ _ _ (.advance once)) ((signalDone.drop 2).take 2) (signalDone.drop 4)
    (by decide) m c d ran
  exact ⟨e, mem ▸ stores⟩

end Child

/-- A listing whose data are the counters, at address zero. -/
def countersOnly : Listing := ⟨[], false, [(threadFutex, 0)], 0, .silent⟩

def startOfZeros : System := ⟨fun _ => 0, .working, [], 0⟩

theorem startOfZeros_starts : Starts countersOnly startOfZeros :=
  ⟨rfl, rfl, rfl, by decide, by decide⟩

/-- One child that counts itself. -/
theorem exists_completed : ∃ m e, doneCount countersOnly m = 1 ∧ spawnCount countersOnly m = 1 ∧
    Relation.ReflTransGen (OrderedStep countersOnly) startOfZeros
      ⟨m, .working, [.signalling (signalDone.drop 4) e], 1⟩ := by
  obtain ⟨m, run⟩ := exists_spawned startOfZeros_starts 1
  obtain ⟨done, spawns⟩ := spawned_counts startOfZeros_starts run
  have lift (m m' : Memory) (old new : Child) (once : ChildStep countersOnly m old m' new) :
      OrderedStep countersOnly ⟨m, .working, [] ++ old :: [], 1⟩ ⟨m', .working, [] ++ new :: [], 1⟩ := by
    have step : Step countersOnly (.child ([] : List Child).length) ⟨m, .working, [] ++ old :: [], 1⟩
      ⟨m', .working, [] ++ new :: [], 1⟩ := .child once
    refine ⟨_, step, fun _ _ _ j other apart found => ?_⟩
    rw [List.nil_append, List.getElem?_singleton, if_neg (by simpa using apart)] at found
    cases found
  obtain ⟨c, rdi, rax, loads⟩ := child_loads lift m
  obtain ⟨e, stores⟩ := child_stores lift m rdi
  refine ⟨_, e, ?_, ?_, (run.trans loads).trans stores⟩
  · rw [doneCount_done, rax, done]
    rfl
  · rw [spawnCount_done, spawns]
    rfl

theorem done_count_exact_one : ∃ t : System, Relation.ReflTransGen (OrderedStep countersOnly) startOfZeros t ∧
    t.completed = 1 ∧ (doneCount countersOnly t.mem).toNat = t.completed := by
  obtain ⟨m, e, -, -, run⟩ := exists_completed
  exact ⟨_, run, rfl, done_count_exact startOfZeros_starts run (show 1 < 2 ^ 64 by decide)⟩

/-- Two children that both load the counter before either stores to it count as one. -/
theorem completion_lost : ¬∀ (L : Listing) (s t : System), Starts L s → Steps L s t → t.children.length < 2 ^ 64 →
    (doneCount L t.mem).toNat = t.completed := by
  intro exact
  obtain ⟨m, run⟩ := exists_spawned startOfZeros_starts 2
  obtain ⟨done, -⟩ := spawned_counts startOfZeros_starts run
  have lift (before after : List Child) (m m' : Memory) (old new : Child) (once : ChildStep countersOnly m old m' new) :
      AnyStep countersOnly ⟨m, .working, before ++ old :: after, 2⟩ ⟨m', .working, before ++ new :: after, 2⟩ :=
    ⟨_, .child once⟩
  obtain ⟨c, rdi, rax, loads⟩ := child_loads (lift [] [.working]) m
  obtain ⟨c', rdi', rax', loads'⟩ := child_loads (lift [.signalling (signalDone.drop 2) c] []) m
  obtain ⟨e, stores⟩ := child_stores (lift [] [.signalling (signalDone.drop 2) c']) m rdi
  obtain ⟨e', stores'⟩ := child_stores (lift [.signalling (signalDone.drop 4) e] []) _ rdi'
  have both := ((((Steps.of_ordered run).trans loads).trans loads').trans stores).trans stores'
  have counted := exact _ _ _ startOfZeros_starts both (show 2 < 2 ^ 64 by decide)
  rw [doneCount_done, rax', done] at counted
  cases counted

theorem join_all_complete_one : ∃ t : System, Steps countersOnly startOfZeros t ∧ t.main = .passed ∧
    t.children.length = 1 ∧ ∀ child ∈ t.children, child.stored = true := by
  obtain ⟨m, e, done, spawns, run⟩ := exists_completed
  have passes := (Steps.of_ordered run).trans (join_run _ _ (spawns.trans done.symm))
  exact ⟨_, passes, rfl, rfl, join_all_complete startOfZeros_starts passes (show 1 < 2 ^ 64 by decide) rfl⟩

/-- After 2 ^ 64 spawns the counter of spawned threads is zero again. -/
theorem join_all_early : ¬∀ (L : Listing) (s t : System), Starts L s → Steps L s t → t.main = .passed →
    ∀ child ∈ t.children, child.stored = true := by
  intro complete
  obtain ⟨m, run⟩ := exists_spawned startOfZeros_starts (2 ^ 64)
  obtain ⟨done, spawns⟩ := spawned_counts startOfZeros_starts run
  have agree : spawnCount countersOnly m = doneCount countersOnly m := spawns.trans (done ▸ by decide)
  have passes := (Steps.of_ordered run).trans (join_run _ _ agree)
  have member : Child.working ∈ List.replicate (2 ^ 64) Child.working := List.mem_replicate.mpr ⟨by decide, rfl⟩
  exact absurd (complete _ _ _ startOfZeros_starts passes rfl _ member) (by decide)

end Aclm.Codegen.Threads
