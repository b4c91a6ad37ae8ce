import LuaLift.Proofs.LocalNames

/-! # The early steps succeed on well-formed bytecode

The tree of a function is built and checked, its loop tests are moved and its local variables are
named. For well-formed bytecode none of these steps fails. -/
namespace LuaLift.Proofs
open Bytecode Tree

variable {p : Prototype} {root : NodeId} {s : Store}

/-- Steps succeed on a tree, one after the other. -/
def StepsSucceed (p : Prototype) (steps : List Step) (root : NodeId) (s : Store) : Prop :=
  ∃ root' s', runSteps p steps root s = (.ok root', s')

theorem stepsSucceed_cons {step : Step} {rest : List Step}
    (h : Succeeds (step.run p root) ⟨s, ()⟩ fun r w => StepsSucceed p rest r w.store) :
    StepsSucceed p (step :: rest) root s := by
  obtain ⟨r, w, hr, root', s', hrest⟩ := h
  refine ⟨root', s', ?_⟩
  have hrun : step.run p root ⟨s, ()⟩ = .ok r w := hr
  simp only [runSteps, Edit.run', hrun, hrest]

theorem succeeds_validate (h : s.validate true root = .ok ()) :
    Succeeds (Tree.validate true root : Edit Unit) ⟨s, ()⟩ fun _ w => w.store = s := by
  refine (succeeds_get ?_).bind
  rw [h]
  exact .pure rfl

/-- Well-formed bytecode is lifted to a tree that passes the check, whose loop tests can be moved and
whose local variables can be named. -/
theorem early_steps_succeed (h : Throughout WellFormed p) : StepsSucceed p earlySteps .absent {} := by
  refine stepsSucceed_cons ((succeeds_liftFunction h (Nat.le_refl _)).mono
    fun f w ⟨_, _, ⟨as, ss, scope, hcell⟩, hl⟩ => ?_)
  have hf : f.index < w.store.cells.size := inside_of_cell hcell (by simp)
  refine stepsSucceed_cons ((succeeds_validate (hl.validate Nat.one_pos hf)).next fun _ w' hw => .pure ?_)
  rw [hw]
  refine stepsSucceed_cons ((succeeds_moveLoopTests hl hf).next fun _ w1 hs => .pure ?_)
  obtain ⟨as, ss, scope, hcell⟩ := hs.function
  have hf1 : f.index < w1.store.cells.size := inside_of_cell hcell (by simp)
  refine stepsSucceed_cons ((succeeds_nameLocals hs hf1).next fun _ w2 _ => .pure ?_)
  exact ⟨f, w2.store, rfl⟩

/-- A function inside, a test whose branches meet at once, both kinds of loops, and a jump that
closes over variables and leads to a return. -/
def loopsAndFunctions : Prototype :=
  { ofCode [
      withAD .fnew 0 0,
      withAD .istc 1 0, withAD .jmp 2 0,
      withAD .fori 0 2, withAD .mov 4 3, withAD .forl 0 (-2),
      withAD .jmp 7 1, withAD .mov 7 4, withABC .iterc 4 3 3, withAD .iterl 4 (-3),
      withAD .uclo 0 1, withAD .kshort 0 1, withAD .ret0 0 1] with
    complex := [.child testsAndLoops] }

theorem early_steps_of_loopsAndFunctions :
    Throughout WellFormed loopsAndFunctions ∧ StepsSucceed loopsAndFunctions earlySteps .absent {} := by
  have h : Throughout WellFormed loopsAndFunctions := by
    refine .tree (by decide) fun q hq => ?_
    obtain rfl : q = testsAndLoops := by simpa [loopsAndFunctions] using hq
    exact throughout_ofCode (by decide)
  exact ⟨h, early_steps_succeed h⟩

/-- A numeric loop whose end stands in front of its start. -/
def countBeforeStart : Prototype := ofCode [
  withAD .forl 0 1, withAD .fori 0 (-1), withAD .ret0 0 1]

/-- A loop over an iterator whose end stands in front of its start. -/
def iterateBeforeStart : Prototype := ofCode [
  withABC .iterc 3 2 3, withAD .iterl 3 2, withAD .ret0 0 1, withAD .jmp 0 (-4), withAD .ret0 0 1]

theorem not_stepsSucceed {steps : List Step} (h : (runSteps p steps root s).1.toBool = false) :
    ¬ StepsSucceed p steps root s := by
  rintro ⟨root', s', hr⟩
  rw [hr] at h
  cases h

/-- Loops that lead forward and ends of iterator loops that stand alone are regular, instruction by
instruction, and some step fails on each of them. -/
theorem early_steps_need_ordered_loops :
    (Throughout Regular countBeforeStart ∧ ¬ StepsSucceed countBeforeStart earlySteps .absent {}) ∧
    (Throughout Regular iterateBeforeStart ∧ ¬ StepsSucceed iterateBeforeStart earlySteps .absent {}) ∧
    (Throughout Regular strayLoopEnd ∧ ¬ StepsSucceed strayLoopEnd earlySteps .absent {}) :=
  ⟨⟨throughout_ofCode (by decide), not_stepsSucceed (by decide +kernel)⟩,
    ⟨throughout_ofCode (by decide), not_stepsSucceed (by decide +kernel)⟩,
    ⟨throughout_ofCode (by decide), not_stepsSucceed (by decide +kernel)⟩⟩

end LuaLift.Proofs
