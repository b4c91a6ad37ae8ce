import Mathlib.Data.List.GetD
import LuaLift.Proofs.Ways

/-! # The exit of a block

The first and last addresses of the blocks of well-formed code, and the exit that is made for each:
the instructions that belong to an exit are in one block, and a block starts at every address at
which control goes on. -/
namespace LuaLift.Proofs
open Bytecode Tree Pass Lift

/-! ## First and last addresses -/

/-- The first address of a block, by the last addresses of all. -/
def firstOf (ends : List Int) (k : Nat) : Int := (0 :: ends).getD k 0 + 1

/-- The last address of a block. -/
def lastOf (ends : List Int) (k : Nat) : Int := ends.getD k 0

variable {code : List Instruction} {ends : List Int} {j k : Nat} {a d : Int} {o : Opcode}

theorem firstOf_succ (ends : List Int) (k : Nat) : firstOf ends (k + 1) = lastOf ends k + 1 := rfl

theorem lastOf_mem (hk : k < ends.length) : lastOf ends k ∈ ends := by
  rw [lastOf, List.getD_eq_getElem _ _ hk]
  exact List.getElem_mem hk

section
variable (h : BlockEnds code ends)
include h

theorem BlockEnds.firstOf_lt (hjk : j < k) (hk : k ≤ ends.length) :
    firstOf ends j < firstOf ends k := by
  have hlt := List.pairwise_iff_getElem.mp h.ascending j k (by simp; omega) (by simp; omega) hjk
  rw [firstOf, firstOf, List.getD_eq_getElem _ _ (by simp; omega),
    List.getD_eq_getElem _ _ (by simp; omega)]
  omega

theorem BlockEnds.firstOf_le (hjk : j ≤ k) (hk : k ≤ ends.length) :
    firstOf ends j ≤ firstOf ends k := by
  rcases Nat.lt_or_eq_of_le hjk with hlt | rfl
  · exact Int.le_of_lt (h.firstOf_lt hlt hk)
  · exact Int.le_refl _

theorem BlockEnds.firstOf_inj (hj : j ≤ ends.length)
    (hk : k ≤ ends.length) (he : firstOf ends j = firstOf ends k) : j = k := by
  rcases Nat.lt_trichotomy j k with hlt | heq | hgt
  · have := h.firstOf_lt hlt hk
    omega
  · exact heq
  · have := h.firstOf_lt hgt hj
    omega

theorem BlockEnds.firstOf_le_lastOf (hk : k < ends.length) : firstOf ends k ≤ lastOf ends k := by
  have := h.firstOf_lt (Nat.lt_succ_self k) hk
  rw [firstOf_succ] at this
  omega

theorem BlockEnds.firstOf_pos (hk : k ≤ ends.length) : 1 ≤ firstOf ends k := by
  cases k with
  | zero => exact Int.le_refl _
  | succ k =>
    have hlt : firstOf ends 0 < firstOf ends (k + 1) := h.firstOf_lt (Nat.succ_pos k) hk
    have h0 : firstOf ends 0 = 1 := rfl
    omega

theorem BlockEnds.lastOf_final (hk : k + 1 = ends.length) :
    lastOf ends k = (code.length : Int) - 1 := by
  have hlast := h.final
  rw [List.getLast?_eq_getElem?, ← hk, Nat.add_sub_cancel] at hlast
  rw [lastOf, List.getD_eq_getElem?_getD, hlast]
  rfl

theorem BlockEnds.lastOf_lt (hk : k + 1 < ends.length) :
    lastOf ends k < (code.length : Int) - 1 := by
  obtain ⟨m, hm⟩ : ∃ m, ends.length = m + 1 := ⟨ends.length - 1, by omega⟩
  rw [← h.lastOf_final hm.symm]
  have := h.firstOf_lt (show k + 1 < m + 1 by omega) (by omega)
  rw [firstOf_succ, firstOf_succ] at this
  omega

theorem BlockEnds.lastOf_le (hk : k < ends.length) : lastOf ends k ≤ (code.length : Int) - 1 := by
  by_cases hm : k + 1 = ends.length
  · exact Int.le_of_eq (h.lastOf_final hm)
  · have := h.lastOf_lt (k := k) (by omega)
    omega

theorem BlockEnds.lastOf_inj (hj : j < ends.length)
    (hk : k < ends.length) (hl : lastOf ends j = lastOf ends k) : j = k := by
  have hfirst : firstOf ends (j + 1) = firstOf ends (k + 1) := by rw [firstOf_succ, firstOf_succ, hl]
  have := h.firstOf_inj (by omega) (by omega) hfirst
  omega

theorem BlockEnds.eq_of_inside (hj : j < ends.length)
    (hk : k < ends.length) (h1 : firstOf ends j ≤ a) (h2 : a ≤ lastOf ends j) (h3 : firstOf ends k ≤ a)
    (h4 : a ≤ lastOf ends k) : j = k := by
  rcases Nat.lt_trichotomy j k with hlt | heq | hgt
  · have := h.firstOf_le (show j + 1 ≤ k by omega) (by omega)
    rw [firstOf_succ] at this
    omega
  · exact heq
  · have := h.firstOf_le (show k + 1 ≤ j by omega) (by omega)
    rw [firstOf_succ] at this
    omega

theorem BlockEnds.endsBlock (hk : k + 1 < ends.length) : EndsBlock code (lastOf ends k) := by
  have hlt := h.lastOf_lt hk
  rcases ((h.mem _).mp (lastOf_mem (k := k) (by omega))).2 with he | he
  · exact he
  · omega

theorem BlockEnds.exists_last (ha : 1 ≤ a) (he : EndsBlock code a) :
    ∃ j < ends.length, lastOf ends j = a := by
  obtain ⟨j, hj, hja⟩ := List.mem_iff_getElem.mp ((h.mem a).mpr ⟨ha, .inl he⟩)
  exact ⟨j, hj, by rw [lastOf, List.getD_eq_getElem _ _ hj, hja]⟩

theorem BlockEnds.pos : 0 < ends.length := by
  cases ends with
  | nil => cases h.final
  | cons e es => simp

/-- Behind an address at which blocks end, and at the first one, a block starts. -/
theorem BlockEnds.begins (ha : a = 0 ∨ 1 ≤ a ∧ EndsBlock code a)
    (hlt : a < (code.length : Int) - 1) : ∃ k < ends.length, firstOf ends k = a + 1 := by
  rcases ha with rfl | ⟨ha, he⟩
  · exact ⟨0, h.pos, rfl⟩
  · obtain ⟨k, hk, rfl⟩ := h.exists_last ha he
    have hk' : k + 1 ≠ ends.length := by
      intro hk'
      have := h.lastOf_final hk'
      omega
    exact ⟨k + 1, by omega, firstOf_succ ends k⟩

theorem BlockEnds.eq_lastOf (hk : k < ends.length) (ha : EndsBlock code a)
    (h1 : firstOf ends k ≤ a) (h2 : a ≤ lastOf ends k) : a = lastOf ends k := by
  have hpos := h.firstOf_pos (k := k) (by omega)
  obtain ⟨m, hm, rfl⟩ := h.exists_last (by omega) ha
  rw [h.eq_of_inside hm hk (h.firstOf_le_lastOf hm) (Int.le_refl _) h1 h2]

end

/-! ## Where the targets start -/

theorem endsBlock_of_branch (ho : opAt code a = some o)
    (hb : isBranch o = true) (hd : destinationAt code a = some d) (hu : ¬ (o = .uclo ∧ d = a + 1)) :
    EndsBlock code (d - 1) ∧ EndsBlock code a :=
  ⟨⟨a, o, ho, .inl ⟨hb, d, hd, hu, .inl rfl⟩⟩, ⟨a, o, ho, .inl ⟨hb, d, hd, hu, .inr rfl⟩⟩⟩

theorem isLeap_branch (o : Opcode) (h : isLeap o = true) : isBranch o = true ∧ o ≠ .uclo := by
  cases o <;> simp_all [isLeap, isBranch]

theorem isCountStart_branch (o : Opcode) (h : isCountStart o = true) :
    isBranch o = true ∧ o ≠ .uclo := by
  cases o <;> simp_all [isCountStart, isBranch]

theorem begins_of_leadsBehind {kind : Opcode → Bool} (h : Jumping code)
    (he : BlockEnds code ends) (hl : LeadsBehind code kind a)
    (hkind : ∀ o, kind o = true → isBranch o = true ∧ o ≠ .uclo)
    (hd : destinationAt code a = some d) : ∃ k < ends.length, firstOf ends k = d := by
  obtain ⟨e, o, ho, hko, hd'⟩ := hl.destination
  obtain rfl : d = e + 1 := Option.some.inj (hd.symm.trans hd')
  obtain ⟨hb, hu⟩ := hkind o hko
  obtain ⟨d', hd'', -⟩ := h.destination ho hb
  have hends := (endsBlock_of_branch ho hb hd'' fun hx => hu hx.1).2
  exact he.begins (.inr ⟨(exists_of_opAt ho).1, hends⟩) (hends.inside h).2

theorem begins_of_branch (h : Jumping code) (he : BlockEnds code ends)
    (ho : opAt code a = some o) (hb : isBranch o = true) (hd : destinationAt code a = some d)
    (hu : ¬ (o = .uclo ∧ d = a + 1)) : ∃ k < ends.length, firstOf ends k = d := by
  obtain ⟨d', hd', h1, -⟩ := h.destination ho hb
  obtain rfl : d = d' := Option.some.inj (hd.symm.trans hd')
  have hends := (endsBlock_of_branch ho hb hd hu).1
  have hcase : d - 1 = 0 ∨ 1 ≤ d - 1 ∧ EndsBlock code (d - 1) := by
    rcases Int.lt_or_le (d - 1) 1 with hlt | hle
    · exact .inl (by omega)
    · exact .inr ⟨hle, hends⟩
  obtain ⟨k, hk, hf⟩ := he.begins hcase (hends.inside h).2
  exact ⟨k, hk, by omega⟩

/-- No block ends between an instruction that goes on with the next and that one, if nothing
leads there. -/
theorem not_endsBlock (ho : opAt code a = some o) (hb : isBranch o = false)
    (hl : isLoopEnd o = false) (ht : ¬ Targeted code (a + 1)) : ¬ EndsBlock code a := by
  rintro ⟨e, o', ho', (⟨hb', d, hd, -, rfl | rfl⟩ | ⟨hl', rfl⟩)⟩
  · exact ht (by rw [Int.sub_add_cancel]; exact targeted_of ho' hb' hd)
  · rw [Option.some.inj (ho.symm.trans ho')] at hb
    simp [hb] at hb'
  · rw [Option.some.inj (ho.symm.trans ho')] at hl
    simp [hl] at hl'

theorem isTest_plain (h : isTest o = true) : isBranch o = false ∧ isLoopEnd o = false := by
  cases o <;> first | exact ⟨rfl, rfl⟩ | cases h

theorem isIterator_plain (h : isIterator o = true) :
    isBranch o = false ∧ isLoopEnd o = false := by
  cases o <;> first | exact ⟨rfl, rfl⟩ | cases h

theorem BlockEnds.joined (h : BlockEnds code ends) (hk : k < ends.length) (ha : a = lastOf ends k)
    (ho : opAt code (a - 1) = some o) (hne : ¬ EndsBlock code (a - 1)) :
    firstOf ends k < a := by
  have hle := h.firstOf_le_lastOf hk
  refine Int.lt_iff_le_and_ne.mpr ⟨by omega, fun heq => ?_⟩
  have h1 := (exists_of_opAt ho).1
  cases k with
  | zero =>
    have : firstOf ends 0 = 1 := rfl
    omega
  | succ k =>
    rw [firstOf_succ] at heq
    refine hne ?_
    have := h.endsBlock (k := k) hk
    rwa [show lastOf ends k = a - 1 by omega] at this

/-! ## The exit of a block -/

/-- What stays fixed while the exits of a function are made. If `valid` holds, instructions use
slots that are there. -/
structure Staged (p : Prototype) (valid : Prop) (ends : List Int) (starts : Starts)
    (blocks : List NodeId) (f : Nat → Block) : Prop where
  branching : Branching p.instructions
  called : IteratorsCalled p.instructions
  legible : ∀ i ∈ p.instructions.drop 1, Legible p i
  slots : valid → ∀ i ∈ p.instructions.drop 1, slotsFit i = true
  blockEnds : BlockEnds p.instructions ends
  length : blocks.length = ends.length
  indexed : Indexed starts blocks f
  first : ∀ k, (f k).first = firstOf ends k

variable {p : Prototype} {valid : Prop} {starts : Starts} {blocks : List NodeId} {f : Nat → Block}
variable {w : Work Unit} {last : Instruction}

theorem mem_drop_of_address {i : Instruction} (ha : 1 ≤ a) (hi : code[a.toNat]? = some i) :
    i ∈ code.drop 1 := by
  refine List.mem_iff_getElem?.mpr ⟨a.toNat - 1, ?_⟩
  rw [List.getElem?_drop, ← hi]
  congr 1
  omega

theorem Staged.begins (h : Staged p valid ends starts blocks f)
    (ha : ∃ k < ends.length, firstOf ends k = a) : Begins blocks f a := by
  obtain ⟨k, hk, rfl⟩ := ha
  exact ⟨k, h.length ▸ hk, h.first k⟩

theorem Staged.begins_next (h : Staged p valid ends starts blocks f) (hk : k + 1 < ends.length) :
    Begins blocks f (lastOf ends k + 1) :=
  h.begins ⟨k + 1, hk, firstOf_succ ends k⟩

theorem exists_destination (hi : code[a.toNat]? = some last)
    (hd : destinationAt code a = some d) : ∃ v, last.cd = some v ∧ d = jumpDestination a v := by
  rw [destinationAt_of hi, Option.map_eq_some_iff] at hd
  obtain ⟨v, hv, rfl⟩ := hd
  exact ⟨v, hv, rfl⟩

/-- The instruction before the last one of a block, if it is in the block. -/
def beforeIn (code : List Instruction) (ends : List Int) (k : Nat) : Option Instruction :=
  if firstOf ends k < lastOf ends k then code[(lastOf ends k - 1).toNat]? else none

theorem exitOf_jump {before : Option Instruction} (hm : last.meaning = some o)
    (ho : o = .jmp ∨ o = .uclo ∨ o = .isnext)
    (hb : ∀ i, before = some i → ¬ i.code ≤ Opcode.isf.number) :
    exitOf p starts a before last = jumpExit starts a last := by
  unfold exitOf
  rw [hm]
  cases before with
  | none => rcases ho with rfl | rfl | rfl <;> rfl
  | some i => rcases ho with rfl | rfl | rfl <;> exact if_neg (hb i rfl)

/-- The exit of block `k` is made, and leads where its last instruction goes on. -/
def ExitMade (p : Prototype) (valid : Prop) (ends : List Int) (starts : Starts) (blocks : List NodeId)
    (f : Nat → Block) (w : Work Unit) (k : Nat) (last : Instruction) : Prop :=
  Succeeds (exitOf p starts (lastOf ends k) (beforeIn p.instructions ends k) last) w fun r w' =>
    Exits blocks f valid (wayFrom p.instructions (lastOf ends k)) w r.1 w' ∧
      r.2 = folded p.instructions (lastOf ends k)

section
variable (h : Staged p valid ends starts blocks f) (hk : k + 1 < ends.length)
  (hf : Framed w.store blocks f) (hlast : p.instructions[(lastOf ends k).toNat]? = some last)
  (hm : last.meaning = some o)
include h hk hlast hm

theorem Staged.opAt_last : opAt p.instructions (lastOf ends k) = some o :=
  (opAt_of ((h.blockEnds.mem _).mp (lastOf_mem (by omega))).1 hlast).trans hm

include hf

theorem Staged.succeeds_jump (ho : o = .jmp ∨ o = .uclo ∨ o = .isnext) :
    ExitMade p valid ends starts blocks f w k last := by
  have hop := h.opAt_last hk hlast hm
  have hbranch : isBranch o = true := by rcases ho with rfl | rfl | rfl <;> rfl
  obtain ⟨d, hd, -⟩ := h.branching.destination hop hbranch
  obtain ⟨v, hv, rfl⟩ := exists_destination hlast hd
  have hnext := h.begins_next hk
  by_cases ht : (opAt p.instructions (lastOf ends k - 1)).any isTest = true
  · obtain ⟨t, hot, htest⟩ := (Option.any_eq_true ..).mp ht
    obtain ⟨hjmp, hfree⟩ := h.branching.test.at hot htest
    rw [Int.sub_add_cancel] at hjmp hfree
    obtain rfl : o = .jmp := Option.some.inj (hop.symm.trans hjmp)
    obtain ⟨hb, hl⟩ := isTest_plain htest
    have hlt := h.blockEnds.joined (by omega) rfl hot
      (not_endsBlock hot hb hl (by rwa [Int.sub_add_cancel]))
    obtain ⟨h1, -, test, htest', hmt⟩ := exists_of_opAt hot
    have hlegible := h.legible test (mem_drop_of_address h1 htest')
    obtain rfl : t = test.op := Option.some.inj (hmt.symm.trans hlegible.meaning)
    have hcode : test.code ≤ Opcode.isf.number := by
      rw [hlegible.code]
      exact of_decide_eq_true htest
    have hway : wayFrom p.instructions (lastOf ends k) =
        .test (lastOf ends k + 1) (jumpDestination (lastOf ends k) v) := by
      simp [wayFrom, hop, ht, hd]
    have hfold : folded p.instructions (lastOf ends k) = 2 := by simp [folded, hop, ht]
    rw [ExitMade, hway, hfold, beforeIn, if_pos hlt, htest', exitOf, hm]
    rw [if_pos hcode]
    exact succeeds_testExit h.indexed hf hv
      (h.begins (begins_of_branch h.branching.toJumping h.blockEnds hop hbranch hd (by simp))) hnext
      hlegible htest
  · have hbefore : ∀ i, beforeIn p.instructions ends k = some i → ¬ i.code ≤ Opcode.isf.number := by
      intro i hi hcode
      unfold beforeIn at hi
      split at hi
      · have hpos := h.blockEnds.firstOf_pos (k := k) (by omega)
        have hlegible := h.legible i (mem_drop_of_address (by omega) hi)
        refine ht ?_
        rw [opAt_of (by omega) hi, hlegible.meaning]
        rw [hlegible.code] at hcode
        exact decide_eq_true hcode
      · cases hi
    rw [ExitMade, exitOf_jump hm ho hbefore]
    have hfold : folded p.instructions (lastOf ends k) = 1 := by
      rcases ho with rfl | rfl | rfl <;> simp [folded, hop, ht]
    rw [hfold]
    by_cases hu : o = .uclo ∧ v = 0
    · obtain ⟨rfl, rfl⟩ := hu
      have hway : wayFrom p.instructions (lastOf ends k) = .flow (lastOf ends k + 1) := by
        simp [wayFrom, hop, ht, hd, jumpDestination]
      rw [hway]
      exact succeeds_closingFlow h.indexed hf hv hm hnext
    · have hne : ¬ (o = .uclo ∧ jumpDestination (lastOf ends k) v = lastOf ends k + 1) := by
        rintro ⟨rfl, hj⟩
        refine hu ⟨rfl, ?_⟩
        rw [jumpDestination] at hj
        omega
      have hway : wayFrom p.instructions (lastOf ends k) =
          .jump (jumpDestination (lastOf ends k) v) (last.meaning = some .uclo) := by
        rw [hm]
        rcases ho with rfl | rfl | rfl
        · simp [wayFrom, hop, ht, hd]
        · simp only [true_and] at hne
          simp [wayFrom, hop, ht, hd, hne]
        · simp [wayFrom, hop, ht, hd]
      rw [hway]
      refine succeeds_jumpExit h.indexed hf hv ?_
        (h.begins (begins_of_branch h.branching.toJumping h.blockEnds hop hbranch hd hne))
      rintro ⟨hx, hv0⟩
      exact hu ⟨Option.some.inj (hm.symm.trans hx), hv0⟩

theorem Staged.succeeds_iterator (ho : isIteratorEnd o = true) :
    ExitMade p valid ends starts blocks f w k last := by
  have hop := h.opAt_last hk hlast hm
  have hbehind := h.branching.iteratorEnd.at hop ho
  obtain ⟨e, -, -, -, hd⟩ := hbehind.destination
  obtain ⟨v, hv, hve⟩ := exists_destination hlast hd
  obtain ⟨c, hoc, hcall⟩ := (Option.any_eq_true ..).mp (h.called.at hop ho)
  obtain ⟨-, hfree⟩ := h.branching.iterator.at hoc hcall
  obtain ⟨hb, hl⟩ := isIterator_plain hcall
  have hlt := h.blockEnds.joined (by omega) rfl hoc (not_endsBlock hoc hb hl hfree)
  obtain ⟨h1, -, call, hcall', hmc⟩ := exists_of_opAt hoc
  have hmem := mem_drop_of_address h1 hcall'
  have hlegible := h.legible call hmem
  obtain rfl : c = call.op := Option.some.inj (hmc.symm.trans hlegible.meaning)
  have hshape : call.shape.a = some .base ∧ call.shape.b = some .literal := by
    rw [Instruction.shape]
    generalize call.op = c at hcall
    cases c <;> first | exact ⟨rfl, rfl⟩ | cases hcall
  obtain ⟨x, hx, -⟩ := hlegible.operandA hshape.1
  obtain ⟨b, hb', -⟩ := hlegible.operandB hshape.2
  have hx3 : valid → 3 ≤ x := by
    intro hvalid
    have hfit := h.slots hvalid call hmem
    rw [slotsFit, hx] at hfit
    generalize call.op = c at hcall hfit
    cases c <;> first | exact of_decide_eq_true hfit | cases hcall
  have hmeaning : call.meaning = some .iterc ∨ call.meaning = some .itern := by
    rw [hmc]
    generalize call.op = c at hcall
    cases c <;> first | exact .inl rfl | exact .inr rfl | cases hcall
  have hbody := h.begins (begins_of_leadsBehind h.branching.toJumping h.blockEnds hbehind
    isLeap_branch hd)
  rw [hve] at hbody
  have hexit : exitOf p starts (lastOf ends k) (beforeIn p.instructions ends k) last =
      iteratorExit starts (lastOf ends k) call last := by
    rw [beforeIn, if_pos hlt, hcall', exitOf, hm]
    cases o <;> first | rfl | cases ho
  have hway : wayFrom p.instructions (lastOf ends k) =
      .iterate (jumpDestination (lastOf ends k) v) (lastOf ends k + 1) := by
    rw [wayFrom, hop, hd, hve]
    cases o <;> first | rfl | cases ho
  have hfold : folded p.instructions (lastOf ends k) = 2 := by
    rw [folded, hop]
    cases o <;> first | rfl | cases ho
  rw [ExitMade, hexit, hway, hfold]
  exact succeeds_iteratorExit h.indexed hf hv hbody (h.begins_next hk) hmeaning hx hb' hx3

theorem Staged.succeeds_count (ho : isCountEnd o = true) :
    ExitMade p valid ends starts blocks f w k last := by
  have ha1 := ((h.blockEnds.mem _).mp (lastOf_mem (k := k) (by omega))).1
  have hop := h.opAt_last hk hlast hm
  have hbehind := h.branching.countEnd.at hop ho
  obtain ⟨e, -, -, -, hd⟩ := hbehind.destination
  obtain ⟨v, hv, hve⟩ := exists_destination hlast hd
  have hlegible := h.legible last (mem_drop_of_address ha1 hlast)
  obtain rfl : o = last.op := Option.some.inj (hm.symm.trans hlegible.meaning)
  have hshape : last.shape.a = some .base := by
    rw [Instruction.shape]
    generalize last.op = c at ho
    cases c <;> first | rfl | cases ho
  obtain ⟨x, hx, hxfits⟩ := hlegible.operandA hshape
  have hbody := h.begins (begins_of_leadsBehind h.branching.toJumping h.blockEnds hbehind
    isCountStart_branch hd)
  rw [hve] at hbody
  have hexit : exitOf p starts (lastOf ends k) (beforeIn p.instructions ends k) last =
      countExit starts (lastOf ends k) last := by
    unfold exitOf
    rw [hm]
    generalize last.op = c at ho
    cases c <;> first | rfl | cases ho
  have hway : wayFrom p.instructions (lastOf ends k) =
      .count (jumpDestination (lastOf ends k) v) (lastOf ends k + 1) := by
    rw [wayFrom, hop, hd, hve]
    generalize last.op = c at ho
    cases c <;> first | rfl | cases ho
  have hfold : folded p.instructions (lastOf ends k) = 1 := by
    rw [folded, hop]
    generalize last.op = c at ho
    cases c <;> first | rfl | cases ho
  rw [ExitMade, hexit, hway, hfold]
  exact succeeds_countExit h.indexed hf hv hbody (h.begins_next hk) hx
    (by simpa [valueFits] using hxfits)

end

theorem Staged.succeeds_exitOf (h : Staged p valid ends starts blocks f)
    (hk : k + 1 < ends.length) (hf : Framed w.store blocks f)
    (hlast : p.instructions[(lastOf ends k).toNat]? = some last) :
    ExitMade p valid ends starts blocks f w k last := by
  have ha1 := ((h.blockEnds.mem _).mp (lastOf_mem (k := k) (by omega))).1
  have hop := opAt_of ha1 hlast
  have hm := (h.legible last (mem_drop_of_address ha1 hlast)).meaning
  rw [hm] at hop
  -- Behind every other instruction control goes on with the next one.
  have hflow : ∀ size, wayFrom p.instructions (lastOf ends k) = .flow (lastOf ends k + 1) →
      folded p.instructions (lastOf ends k) = size →
      (if last.meaning = some .fori ∨ last.meaning = some .uclo then 1 else 0) = size →
      exitOf p starts (lastOf ends k) (beforeIn p.instructions ends k) last =
        flowExit starts (lastOf ends k) last →
      ExitMade p valid ends starts blocks f w k last := by
    intro size hway hfold hsize hexit
    rw [ExitMade, hway, hfold, hexit, ← hsize]
    exact succeeds_flowExit h.indexed hf (h.begins_next hk)
  generalize last.op = o at hm hop
  cases o with
  | jmp | uclo | isnext => exact h.succeeds_jump hk hf hlast hm (by simp)
  | iterl | iiterl | jiterl => exact h.succeeds_iterator hk hf hlast hm rfl
  | forl | iforl | jforl => exact h.succeeds_count hk hf hlast hm rfl
  | _ =>
    refine hflow _ ?_ rfl ?_ ?_
    · rw [wayFrom, hop]
    · rw [folded, hop, hm]
      rfl
    · unfold exitOf
      rw [hm]

end LuaLift.Proofs
