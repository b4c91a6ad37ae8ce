import LuaLift.Proofs.Branching
import LuaLift.Proofs.Succeeding

/-! # Where blocks end

The last addresses of the blocks of well-formed code ascend, the last of them is that of the
function, and they are those of the branches, of the loop ends and of the instructions before a
destination (`BlockEnds`). So the blocks lie side by side and cover the code. -/
namespace LuaLift.Proofs
open Bytecode Lift Tree

/-- The addresses at which an instruction with its operands ends blocks. -/
def endsOf (a : Int) (i : Instruction) : List Int :=
  match i.meaning, i.cd with
  | some o, some d =>
    if isBranch o then
      if o = .uclo ∧ jumpDestination a d = a + 1 then [] else [jumpDestination a d - 1, a]
    else if isLoopEnd o then [a] else []
  | some o, none => if isLoopEnd o then [a] else []
  | none, _ => []

/-- A block ends at an address: a branch or a loop end stands there, or a branch leads behind it. -/
def EndsBlock (code : List Instruction) (a : Int) : Prop :=
  ∃ e o, opAt code e = some o ∧
    ((isBranch o = true ∧ ∃ d, destinationAt code e = some d ∧ ¬ (o = .uclo ∧ d = e + 1) ∧
      (a = d - 1 ∨ a = e)) ∨ (isLoopEnd o = true ∧ a = e))

variable {code : List Instruction} {a : Int} {i : Instruction}

theorem isLoopEnd_of_isBranch {o : Opcode} (h : isBranch o = true) : isLoopEnd o = false := by
  cases o <;> first | rfl | cases h

theorem returns_endsAt {w : Work Unit}
    (h : ∀ o, i.meaning = some o → isBranch o = true → i.cd.isSome = true) :
    Returns (endsAt a i) w (endsOf a i) w := by
  unfold endsAt endsOf
  cases hm : i.meaning with
  | none => rfl
  | some o =>
    by_cases hb : isBranch o = true
    · obtain ⟨d, hd⟩ := Option.isSome_iff_exists.mp (h o hm hb)
      simp only [hb, if_true, hd]
      have hoperand : Returns (operand (some d)) w d w := rfl
      refine hoperand.ofBind ?_
      split <;> rfl
    · cases i.cd <;> simp only [hb, Bool.false_eq_true, if_false] <;> split <;> rfl

/-! ## Ascending lists of addresses -/

theorem mem_insertAddress {b : Int} {xs : List Int} : b ∈ insertAddress a xs ↔ b = a ∨ b ∈ xs := by
  induction xs with
  | nil => simp [insertAddress]
  | cons x xs ih =>
    unfold insertAddress
    split
    · simp
    · split
      · rename_i h
        simp [h]
      · simp only [List.mem_cons, ih]
        tauto

theorem pairwise_insertAddress {xs : List Int} (h : xs.Pairwise (· < ·)) :
    (insertAddress a xs).Pairwise (· < ·) := by
  induction xs with
  | nil => simp [insertAddress]
  | cons x xs ih =>
    obtain ⟨hx, hxs⟩ := List.pairwise_cons.mp h
    unfold insertAddress
    split
    · rename_i hlt
      refine List.pairwise_cons.mpr ⟨fun b hb => ?_, h⟩
      rcases List.mem_cons.mp hb with rfl | hb
      · exact hlt
      · have := hx b hb
        omega
    · split
      · exact h
      · refine List.pairwise_cons.mpr ⟨fun b hb => ?_, ih hxs⟩
        rcases mem_insertAddress.mp hb with rfl | hb
        · omega
        · exact hx b hb

/-- The addresses of a list in ascending order. -/
def ascending (as : List Int) : List Int := as.foldl (fun acc a => insertAddress a acc) []

theorem mem_ascending {b : Int} {as : List Int} : b ∈ ascending as ↔ b ∈ as := by
  have hfold : ∀ (as acc : List Int),
      b ∈ as.foldl (fun acc a => insertAddress a acc) acc ↔ b ∈ as ∨ b ∈ acc := by
    intro as
    induction as with
    | nil => simp
    | cons x xs ih =>
      intro acc
      rw [List.foldl_cons, ih, mem_insertAddress, List.mem_cons]
      tauto
  simp [ascending, hfold]

theorem pairwise_ascending (as : List Int) : (ascending as).Pairwise (· < ·) := by
  have hfold : ∀ (as acc : List Int), acc.Pairwise (· < ·) →
      (as.foldl (fun acc a => insertAddress a acc) acc).Pairwise (· < ·) := by
    intro as
    induction as with
    | nil => exact fun _ h => h
    | cons x xs ih => exact fun acc h => ih _ (pairwise_insertAddress h)
  exact hfold as [] .nil

/-! ## The last addresses of the blocks -/

/-- The addresses at which instructions end blocks, in ascending order. -/
def cuts (code : List Instruction) : List Int :=
  ascending ((code.drop 1).zipIdx.map fun (i, k) => endsOf (k + 1) i).flatten

/-- The ways in which the operation at `e` ends a block at `a`. -/
theorem mem_endsOf {e : Int} (he : 1 ≤ e) (hi : code[e.toNat]? = some i) :
    a ∈ endsOf e i ↔ ∃ o, opAt code e = some o ∧
      ((isBranch o = true ∧ ∃ d, destinationAt code e = some d ∧ ¬ (o = .uclo ∧ d = e + 1) ∧
        (a = d - 1 ∨ a = e)) ∨ (isLoopEnd o = true ∧ a = e)) := by
  rw [opAt_of he hi, destinationAt_of hi, endsOf]
  cases hm : i.meaning with
  | none => simp
  | some o =>
    by_cases hb : isBranch o = true
    · have hl := isLoopEnd_of_isBranch hb
      cases hcd : i.cd with
      | none => simp [hl]
      | some d =>
        by_cases hu : o = .uclo ∧ jumpDestination e d = e + 1
        · obtain ⟨rfl, hd⟩ := hu
          simp [isBranch, isLoopEnd, hd]
        · simp [hb, hl, hu]
          tauto
    · cases hcd : i.cd <;> simp [hb]

theorem mem_cuts : a ∈ cuts code ↔ EndsBlock code a := by
  rw [cuts, mem_ascending, List.mem_flatten]
  constructor
  · rintro ⟨l, hl, ha⟩
    obtain ⟨⟨i, k⟩, hk, rfl⟩ := List.mem_map.mp hl
    have hi := List.mk_mem_zipIdx_iff_getElem?.mp hk
    rw [List.getElem?_drop, Nat.add_comm] at hi
    exact ⟨(k : Int) + 1, (mem_endsOf (by omega) hi).mp ha⟩
  · rintro ⟨e, o, ho, he⟩
    obtain ⟨h1, -, i, hi, -⟩ := exists_of_opAt ho
    have hk : ((e.toNat - 1 : Nat) : Int) + 1 = e := by omega
    refine ⟨endsOf e i, List.mem_map.mpr ⟨(i, e.toNat - 1), ?_, congrArg (endsOf · i) hk⟩,
      (mem_endsOf h1 hi).mpr ⟨o, ho, he⟩⟩
    rw [List.mk_mem_zipIdx_iff_getElem?, List.getElem?_drop, ← hi]
    congr 1
    omega

/-- The last addresses of the blocks. -/
def lastsOf (code : List Instruction) : List Int :=
  match cuts code ++ [(code.length : Int) - 1] with
  | 0 :: rest => rest
  | all => all

theorem returns_lastAddresses (h : Jumping code) {w : Work Unit} :
    Returns (lastAddresses code) w (lastsOf code) w := by
  refine (returns_mapM (g := fun (i, k) => endsOf (k + 1) i) ?_).ofBind ?_
  · rintro ⟨i, k⟩ hk
    have hi := List.mk_mem_zipIdx_iff_getElem?.mp hk
    rw [List.getElem?_drop, Nat.add_comm] at hi
    refine returns_endsAt fun o ho hb => ?_
    obtain ⟨d, hd, -⟩ := h.destination (a := (k : Int) + 1) ((opAt_of (by omega) hi).trans ho) hb
    rw [destinationAt_of hi, Option.map_eq_some_iff] at hd
    obtain ⟨v, hv, -⟩ := hd
    rw [hv]
    rfl
  · change Returns (match cuts code ++ [(code.length : Int) - 1] with
      | 0 :: rest => Pure.pure rest
      | all => Pure.pure all) w _ w
    unfold lastsOf
    split <;> rfl

/-- The last addresses of the blocks of a function. -/
structure BlockEnds (code : List Instruction) (ends : List Int) : Prop where
  ascending : (0 :: ends).Pairwise (· < ·)
  final : ends.getLast? = some ((code.length : Int) - 1)
  mem : ∀ a, a ∈ ends ↔ 1 ≤ a ∧ (EndsBlock code a ∨ a = (code.length : Int) - 1)

theorem not_isBranch_of_isReturn {o : Opcode} (h : isReturn o = true) :
    isBranch o = false ∧ isLoopEnd o = false := by
  cases o <;> first | exact ⟨rfl, rfl⟩ | cases h

theorem EndsBlock.inside (h : Jumping code) (ha : EndsBlock code a) :
    0 ≤ a ∧ a < (code.length : Int) - 1 := by
  obtain ⟨o, ho, hr⟩ := (Option.any_eq_true ..).mp h.final
  obtain ⟨hb, hl⟩ := not_isBranch_of_isReturn hr
  have hlast : ∀ {e : Int} {o' : Opcode}, opAt code e = some o' →
      (isBranch o' = true ∨ isLoopEnd o' = true) → 1 ≤ e ∧ e < (code.length : Int) - 1 := by
    intro e o' he hk
    obtain ⟨h1, h2, -⟩ := exists_of_opAt he
    have hne : e ≠ (code.length : Int) - 1 := by
      rintro rfl
      rcases hk with hk | hk <;> simp_all
    omega
  obtain ⟨e, o', he, (⟨hb', d, hd, -, rfl | rfl⟩ | ⟨hl', rfl⟩)⟩ := ha
  · obtain ⟨d', hd', h1, h2⟩ := h.destination he hb'
    obtain rfl : d = d' := Option.some.inj (hd.symm.trans hd')
    omega
  · have := hlast he (.inl hb')
    omega
  · have := hlast he (.inr hl')
    omega

theorem blockEnds_lastsOf (h : Jumping code) : BlockEnds code (lastsOf code) := by
  have hcuts := pairwise_ascending ((code.drop 1).zipIdx.map fun (i, k) => endsOf (k + 1) i).flatten
  have hlt : ∀ a ∈ cuts code, 0 ≤ a ∧ a < (code.length : Int) - 1 :=
    fun a ha => (mem_cuts.mp ha).inside h
  have hfin : 1 ≤ (code.length : Int) - 1 := by
    obtain ⟨o, ho, -⟩ := (Option.any_eq_true ..).mp h.final
    exact (exists_of_opAt ho).1
  have hall : (cuts code ++ [(code.length : Int) - 1]).Pairwise (· < ·) := by
    refine List.pairwise_append.mpr ⟨hcuts, List.pairwise_singleton _ _, fun a ha b hb => ?_⟩
    rw [List.mem_singleton.mp hb]
    exact (hlt a ha).2
  have hmem : ∀ a, a ∈ cuts code ++ [(code.length : Int) - 1] ↔
      EndsBlock code a ∨ a = (code.length : Int) - 1 := by
    intro a
    rw [List.mem_append, mem_cuts, List.mem_singleton]
  have hnonneg : ∀ a ∈ cuts code ++ [(code.length : Int) - 1], 0 ≤ a := by
    intro a ha
    rcases (hmem a).mp ha with ha | rfl
    · exact (ha.inside h).1
    · omega
  unfold lastsOf
  -- The list starts with 0 exactly if something leads to the first instruction.
  split
  · rename_i rest hrest
    rw [hrest] at hall hmem
    refine ⟨hall, ?_, fun a => ?_⟩
    · have hl := congrArg List.getLast? hrest
      rw [List.getLast?_concat, List.getLast?_cons] at hl
      cases hg : rest.getLast? with
      | none => simp [hg] at hl; omega
      | some b => simpa [hg] using hl.symm
    · have h0 := fun ha : a ∈ rest => (List.pairwise_cons.mp hall).1 a ha
      rw [← hmem, List.mem_cons]
      constructor
      · exact fun ha => ⟨h0 ha, .inr ha⟩
      · rintro ⟨h1, rfl | ha⟩
        · omega
        · exact ha
  · rename_i hne
    have hpos : ∀ a ∈ cuts code ++ [(code.length : Int) - 1], 1 ≤ a := by
      cases hl : cuts code ++ [(code.length : Int) - 1] with
      | nil => simp
      | cons b bs =>
        have hb : b ≠ 0 := fun hb => hne bs (hb ▸ hl)
        have hb0 := hnonneg b (by rw [hl]; exact List.mem_cons_self)
        rw [hl] at hall
        intro a ha
        rcases List.mem_cons.mp ha with rfl | ha
        · omega
        · have := (List.pairwise_cons.mp hall).1 a ha
          omega
    refine ⟨List.pairwise_cons.mpr ⟨fun a ha => ?_, hall⟩, List.getLast?_concat .., fun a => ?_⟩
    · have := hpos a ha
      omega
    · rw [← hmem]
      exact ⟨fun ha => ⟨hpos a ha, ha⟩, And.right⟩

/-! ## The blocks side by side -/

/-- The addresses from `first` to `last`. -/
def addresses (first last : Int) : List Int :=
  (List.range (last + 1 - first).toNat).map fun (k : Nat) => first + k

theorem mem_addresses {first last : Int} : a ∈ addresses first last ↔ first ≤ a ∧ a ≤ last := by
  simp only [addresses, List.mem_map, List.mem_range]
  constructor
  · omega
  · rintro ⟨h1, h2⟩
    exact ⟨(a - first).toNat, by omega, by omega⟩

theorem addresses_append {first mid last : Int} (h : first ≤ mid + 1) (h' : mid ≤ last) :
    addresses first mid ++ addresses (mid + 1) last = addresses first last := by
  obtain ⟨m, hm⟩ : ∃ m : Nat, mid + 1 = first + m := ⟨(mid + 1 - first).toNat, by omega⟩
  obtain ⟨n, hn⟩ : ∃ n : Nat, last + 1 = mid + 1 + n := ⟨(last - mid).toNat, by omega⟩
  have e1 : (mid + 1 - first).toNat = m := by omega
  have e2 : (last + 1 - (mid + 1)).toNat = n := by omega
  have e3 : (last + 1 - first).toNat = m + n := by omega
  rw [addresses, addresses, addresses, e1, e2, e3, List.range_add, List.map_append, List.map_map]
  congr 1
  refine List.map_congr_left fun k _ => ?_
  simp only [Function.comp_apply]
  omega

theorem ranges_eq (previous : Int) (ends : List Int) :
    ranges previous ends = ((previous :: ends).zip ends).map fun (b, e) => (b + 1, e) := by
  induction ends generalizing previous with
  | nil => rfl
  | cons e ends ih => simp [ranges, ih]

theorem ranges_tile {previous final : Int} {ends : List Int}
    (h : (previous :: ends).Pairwise (· < ·)) (hf : ends.getLast? = some final) :
    (ranges previous ends).flatMap (fun r => addresses r.1 r.2) = addresses (previous + 1) final := by
  induction ends generalizing previous with
  | nil => cases hf
  | cons e ends ih =>
    obtain ⟨hp, he⟩ := List.pairwise_cons.mp h
    have hpe := hp e List.mem_cons_self
    rw [ranges, List.flatMap_cons]
    cases ends with
    | nil =>
      obtain rfl : e = final := by simpa using hf
      simp [ranges]
    | cons e' ends =>
      have hf' : (e' :: ends).getLast? = some final := by simpa [List.getLast?_cons] using hf
      rw [ih he hf']
      have hle := (List.pairwise_cons.mp he).1 final (List.mem_of_getLast? hf')
      exact addresses_append (by omega) (by omega)

end LuaLift.Proofs
