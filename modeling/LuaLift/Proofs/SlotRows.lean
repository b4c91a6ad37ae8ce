import LuaLift.Listing.Description
import LuaLift.Proofs.Arithmetic
import LuaLift.Proofs.Occurrences

/-! # Slots in a row

Calls, returns, concatenations and instructions with several destinations take slots in a row. A
listing shows those that stand in the tree, except that it leaves out the last value of a return and
the last known argument of an open tail call, and that a concatenation joins two slots at least. -/
namespace LuaLift.Proofs
open Bytecode Tree Pass Lift Listing

variable {p : Prototype} {w : Work Unit} {labels : List Label} {ts : List String} {o : Opcode}
  {address a b d : Nat} {first count last : Int} {f : Fillings} {hole : Hole} {ks : List Int}

/-! ## What a listing shows -/

/-- The slots shown as arguments, returned values or parts of a concatenation, or as those set to nil:
the hole for them, the first one and their number. -/
def listedValues (a b d : Int) : Opcode → Option (Hole × Int × Int)
  | .call => some (.arguments, a + 1, d - 1)
  | .callm => some (.openArguments, a + 1, d)
  | .callt => some (.tailArguments, a + 1, d - 1)
  | .callmt => some (.openTailArguments, a + 1, d - 1)
  | .ret => some (.returns, a, d - 2)
  | .retm => some (.openReturns, a, d - 1)
  | .knil => some (.fromAToD, a, d + 1 - a)
  | .cat => some (.joinedBToC, b, d + 1 - b)
  | _ => none

theorem slotLabels_of_slotRange (h : slotRange p address first last = .ok labels) :
    slotLabels p address first (last + 1 - first) = .ok labels := by
  unfold slotRange at h
  split at h
  · cases h
  · exact h

theorem shows_values (h : fillings p address ⟨o, o.number, some a, some b, some d⟩ = .ok f)
    (hv : listedValues a b d o = some (hole, first, count)) :
    ∃ labels l, slotLabels p address first count = .ok labels ∧
      joined (if o = .cat then " .. " else ", ") labels = .ok l ∧ f.lookup hole = some l := by
  cases o
  case call | callm =>
    cases hv
    obtain ⟨labels, hlabels, h⟩ := bind_eq_ok (x := slotLabels p address (a + 1) _) h
    obtain ⟨callee, -, h⟩ := bind_eq_ok h
    obtain ⟨results, -, h⟩ := bind_eq_ok h
    obtain ⟨l, hl, ⟨⟩⟩ := bind_eq_ok h
    exact ⟨labels, l, hlabels, hl, rfl⟩
  case callt | callmt =>
    cases hv
    obtain ⟨labels, hlabels, h⟩ := bind_eq_ok (x := slotLabels p address (a + 1) _) h
    obtain ⟨callee, -, h⟩ := bind_eq_ok h
    obtain ⟨l, hl, ⟨⟩⟩ := bind_eq_ok h
    exact ⟨labels, l, hlabels, hl, rfl⟩
  case ret | retm =>
    cases hv
    obtain ⟨labels, hlabels, h⟩ := bind_eq_ok (x := slotLabels p address a _) h
    obtain ⟨l, hl, ⟨⟩⟩ := bind_eq_ok h
    exact ⟨labels, l, hlabels, hl, rfl⟩
  case knil | cat =>
    cases hv
    obtain ⟨labels, hlabels, h⟩ := bind_eq_ok (x := slotRange p address _ _) h
    obtain ⟨l, hl, ⟨⟩⟩ := bind_eq_ok h
    exact ⟨labels, l, slotLabels_of_slotRange hlabels, hl, rfl⟩
  all_goals cases hv

/-- Whether the number of the results is not known. -/
def hasOpenResults (b : Nat) : Opcode → Bool
  | .call | .callm => b = 0
  | .varg => b < 2
  | _ => false

theorem shows_results (h : fillings p address ⟨o, o.number, some a, some b, some d⟩ = .ok f)
    (ho : o ∈ [.call, .callm, .varg, .iterc, .itern]) :
    ∃ l, f.lookup .results = some l ∧ (if hasOpenResults b o then .ok (.text "MULTRES")
      else joined ", " (slotNumbers a (b - 1))) = .ok l := by
  simp only [List.mem_cons, List.not_mem_nil, or_false] at ho
  obtain rfl | rfl | rfl | rfl | rfl := ho
  case inl | inr.inl =>
    obtain ⟨labels, -, h⟩ := bind_eq_ok (x := slotLabels p address (a + 1) _) h
    obtain ⟨callee, -, h⟩ := bind_eq_ok h
    obtain ⟨l, hl, h⟩ := bind_eq_ok h
    obtain ⟨_, -, ⟨⟩⟩ := bind_eq_ok h
    refine ⟨l, rfl, ?_⟩
    rw [← hl, resultsLabel]
    cases b with
    | zero => rfl
    | succ b => rw [if_pos (c := _ ≤ _) (by omega)]; rfl
  case inr.inr.inl =>
    obtain _ | _ | b := b
    · cases h; exact ⟨_, rfl, rfl⟩
    · cases h; exact ⟨_, rfl, rfl⟩
    · obtain ⟨l, hl, ⟨⟩⟩ := bind_eq_ok (x := joined ", " (slotNumbers a _)) h
      exact ⟨l, rfl, hl⟩
  all_goals
    obtain ⟨less3, -, h⟩ := bind_eq_ok (x := slotLabel p address (a - 3)) h
    obtain ⟨less2, -, h⟩ := bind_eq_ok h
    obtain ⟨less1, -, h⟩ := bind_eq_ok h
    obtain ⟨l, hl, ⟨⟩⟩ := bind_eq_ok (x := joined ", " (slotNumbers a (b - 1))) h
    exact ⟨l, rfl, hl⟩

/-! ## What stands in the tree -/

def slotNode (k : Int) : Node := .identifier { kind := .slot, slot := k }

/-- Nodes for `count` slots from `first` on, and behind them one for values of unknown number. -/
def valueNodes (first count : Int) (isOpen : Bool) : List Node :=
  ((List.range count.toNat).map fun (k : Nat) => slotNode (first + k)) ++
    bif isOpen then [.multres] else []

variable {s s' : Store} {xs : List NodeId} {isOpen : Bool}

theorem Grows.valueNodes (hg : Grows s s') (h : xs.map s.node = valueNodes first count isOpen) :
    xs.map s'.node = Proofs.valueNodes first count isOpen := by
  rw [← h]
  refine List.map_congr_left fun x hx => hg.node_eq rfl fun habsent => ?_
  have hmem := List.mem_map_of_mem (f := s.node) hx
  cases isOpen <;> simp [h, habsent, Proofs.valueNodes, slotNode] at hmem

/-- Nodes for slots in a row are made. -/
def MakesRow (m : Edit (List NodeId)) (first count : Int) (isOpen : Bool) : Prop :=
  ∀ w, Succeeds m w fun xs w' =>
    Grows w.store w'.store ∧ xs.map w'.store.node = valueNodes first count isOpen

theorem makesRow_slots (address first last count : Int) (h : last - first + 1 = count) :
    MakesRow (slots address first last) first count false := by
  subst h
  refine fun w => (Succeeds.mapM (fun xs v => Grows w.store v.store ∧
    xs.map v.store.node = valueNodes first xs.length false) ⟨.refl _, rfl⟩ ?_).mono ?_
  · rintro xs k v hk ⟨hg, hxs⟩
    obtain rfl : xs.length = k := by
      have hlt := (List.getElem?_eq_some_iff.mp hk).1
      rw [List.length_range] at hlt
      simpa [List.getElem?_range hlt] using hk
    refine (succeeds_added _ v).mono fun x v' ⟨hg', hx⟩ => ⟨hg.trans hg', ?_⟩
    rw [List.map_append, hg'.valueNodes hxs]
    simp [hx, List.range_succ, slotNode, valueNodes]
  · rintro xs w' ⟨hlen, hg, hxs⟩
    rw [List.length_range] at hlen
    rw [hxs, hlen, valueNodes, valueNodes, Int.toNat_natCast]
    exact ⟨hg, rfl⟩

theorem makesRow_openSlots (address first last count : Int) (h : last - first + 1 = count) :
    MakesRow (do let known ← slots address first last; return known ++ [← add .multres])
      first count true := by
  refine fun w => Succeeds.next (makesRow_slots address first last count h w) fun xs w1 ⟨hg1, hxs⟩ => ?_
  refine Succeeds.next (succeeds_added _ w1) fun m w2 ⟨hg2, hm⟩ => .pure ⟨hg1.trans hg2, ?_⟩
  rw [List.map_append, hg2.valueNodes hxs]
  simp [hm, valueNodes]

/-- The destinations of several values. -/
theorem makesRow_range (address : Int) (h : last - first + 1 = count) (hle : first ≤ last) :
    MakesRow (range address first last) first count false := fun w => by
  unfold range
  rw [require, if_pos (by simpa using hle)]
  exact makesRow_slots address first last count h w

/-- The known arguments of a call are those that are shown. -/
theorem makesRow_callArguments (ho : o = .call ∨ o = .callt) :
    MakesRow (callArguments address ⟨o, o.number, some a, some b, some d⟩) (a + 1) (d - 1) false := by
  obtain rfl | rfl := ho <;> exact makesRow_slots address (a + 1) (a + d - 1) (d - 1) (by omega)

/-- An open tail call has one argument more than are shown. -/
theorem makesRow_openArguments (ho : o = .callm ∨ o = .callmt) :
    MakesRow (callArguments address ⟨o, o.number, some a, some b, some d⟩) (a + 1) d true := by
  obtain rfl | rfl := ho <;> exact makesRow_openSlots address (a + 1) (a + d) d (by omega)

/-- The parts of a concatenation, which is made from the left. -/
inductive ConcatOf (s : Store) : NodeId → List Int → Prop
  | one {k : NodeId} {j : Int} : s.node k = slotNode j → ConcatOf s k [j]
  | more {k x y : NodeId} {ks : List Int} {j : Int} : s.node k = .binary .concat x y → ConcatOf s x ks →
      s.node y = slotNode j → ConcatOf s k (ks ++ [j])

theorem ConcatOf.grows {k : NodeId} (h : ConcatOf s k ks) (hg : Grows s s') : ConcatOf s' k ks := by
  induction h with
  | one hk => exact .one (hg.node_eq hk nofun)
  | more hk _ hy ih => exact .more (hg.node_eq hk nofun) ih (hg.node_eq hy nofun)

/-- Joins a further slot to what is joined already. -/
def joinNext (address : Int) (x : NodeId) (j : Int) : Edit NodeId := do
  let y ← slot address j
  add (.binary .concat x y)

theorem succeeds_joinNext (address j : Int) {x : NodeId} (hx : ConcatOf w.store x ks) :
    Succeeds (joinNext address x j) w fun k w' => ConcatOf w'.store k (ks ++ [j]) := by
  refine Succeeds.next (succeeds_added _ w) fun y w1 ⟨hg1, hy⟩ => ?_
  refine (succeeds_added _ w1).mono fun k w2 ⟨hg2, hk⟩ => ?_
  exact .more hk (hx.grows (hg1.trans hg2)) (hg2.node_eq hy nofun)

theorem succeeds_joinRest (address : Int) {x : NodeId} (hx : ConcatOf w.store x [(b : Int), b + 1])
    (n : Nat) :
    Succeeds ((List.range n).foldlM (fun x (j : Nat) => joinNext address x (b + 2 + j)) x) w
      fun k w' => ConcatOf w'.store k ((List.range (n + 2)).map fun (j : Nat) => (b + j : Int)) := by
  induction n with
  | zero => exact .pure (by simpa [List.range_succ] using hx)
  | succ n ih =>
    rw [List.range_succ, List.foldlM_append]
    refine ih.next fun x w1 hx => ?_
    have hlast : (b : Int) + 2 + n = b + (n + 2 : Nat) := by omega
    rw [List.foldlM_cons, hlast, List.range_succ, List.map_append]
    exact Succeeds.next (succeeds_joinNext address _ hx) fun k w2 hk => .pure hk

/-- A concatenation joins at least two slots, also where the range that is shown ends before. -/
theorem succeeds_concatExpression :
    Succeeds (concatExpression address ⟨.cat, Opcode.cat.number, some a, some b, some d⟩) w fun k w' =>
      ConcatOf w'.store k ((List.range (max 2 (d + 1 - b))).map fun (j : Nat) => (b + j : Int)) := by
  have hcount : max 2 (d + 1 - b) = (d - (b + 2) + 1 : Int).toNat + 2 := by omega
  rw [hcount]
  change Succeeds (slot address b >>= fun x => joinNext address x (b + 1) >>= fun k =>
    (List.range _).foldlM (fun x (j : Nat) => joinNext address x (b + 2 + j)) k) w _
  refine Succeeds.next (succeeds_added _ w) fun x w1 ⟨_, hx⟩ => ?_
  exact Succeeds.next (succeeds_joinNext address (b + 1) (.one hx)) fun _ _ h =>
    succeeds_joinRest address h _

/-! ## Returned values -/

/-- A statement that returns slots in a row. -/
def ReturnsRow (s : Store) (k : NodeId) (first count : Int) (isOpen : Bool) : Prop :=
  ∃ l xs, s.node k = .ret l ∧ s.node l = .list .expressions xs ∧
    xs.map s.node = valueNodes first count isOpen

theorem MakesRow.returned {m : Edit (List NodeId)} (h : MakesRow m first count isOpen) :
    Succeeds (m >>= fun xs => addList .expressions xs >>= fun l => add (.ret l)) w fun k w' =>
      ReturnsRow w'.store k first count isOpen := by
  refine (h w).next fun xs w1 ⟨_, hxs⟩ => ?_
  refine Succeeds.next (succeeds_added _ w1) fun l w2 ⟨hg2, hl⟩ => ?_
  refine (succeeds_added _ w2).mono fun k w3 ⟨hg3, hk⟩ => ?_
  exact ⟨l, xs, hk, hg3.node_eq hl nofun, (hg2.trans hg3).valueNodes hxs⟩

/-- A return has one value more than are shown. -/
theorem succeeds_return (address a d : Nat) :
    Succeeds (returnStatement address ⟨.ret, Opcode.ret.number, some a, none, some d⟩) w fun k w' =>
      ReturnsRow w'.store k a (d - 1) false :=
  (makesRow_slots address a (a + d - 1 - 1) (d - 1) (by omega)).returned

theorem succeeds_openReturn (address a d : Nat) :
    Succeeds (returnStatement address ⟨.retm, Opcode.retm.number, some a, none, some d⟩) w fun k w' =>
      ReturnsRow w'.store k a d true := by
  have hmake := (makesRow_openSlots address a (a + d - 1) d (by omega)).returned (w := w)
  simp only [bind_assoc, pure_bind] at hmake
  exact hmake

/-- The instruction that returns `n` values from slot `a` on. -/
def returning (a n : Nat) : Instruction := ⟨.ret, Opcode.ret.number, some a, none, some (n + 1)⟩

theorem return_listed_without_last (child : Prototype → Edit NodeId) (address a n : Nat)
    (hlabels : slotLabels p address a n = .ok labels) (hts : labels.mapM Label.asText = .ok ts) :
    description p address (returning a (n + 1)) = .ok ("return " ++ ", ".intercalate ts) ∧
    Succeeds (statement child p address (returning a (n + 1))) w fun r w' => ∃ k l xs, r = some k ∧
      w'.store.node k = .ret l ∧ w'.store.node l = .list .expressions xs ∧
      xs.map w'.store.node =
        ((List.range (n + 1)).map fun (j : Nat) => (a + j : Int)).map slotNode := by
  constructor
  · have hcount : ((n + 1 : Nat) : Int) + 1 - 2 = n := by omega
    have hfill : fillings p address (returning a (n + 1)) =
        .ok [(.returns, .text (", ".intercalate ts))] := by
      change (slotLabels p address a (((n + 1 : Nat) : Int) + 1 - 2) >>= fun ls =>
        joined ", " ls >>= fun l => pure [(Hole.returns, l)]) = _
      rw [hcount, hlabels]
      simp [joined, hts, bind, Except.bind, pure, Except.pure]
    rw [description, hfill]
    change Except.ok (String.join ["return ", ", ".intercalate ts]) = _
    simp [String.join]
  · refine (succeeds_return address a (n + 2)).next fun k w' ⟨l, xs, hk, hl, hxs⟩ => .pure ?_
    have hcount : ((n + 2 : Nat) : Int) - 1 = (n + 1 : Nat) := by omega
    rw [hcount, valueNodes, Int.toNat_natCast] at hxs
    exact ⟨k, l, xs, rfl, hk, hl, by simp [hxs]⟩

/-- The values 1 and 2 are returned, and slot 0 alone is listed. -/
theorem two_returned_one_listed :
    slotLabels oneNumber 1 0 1 = .ok [.text "slot0"] ∧
    description oneNumber 1 (returning 0 2) = .ok "return slot0" ∧
    Succeeds (statement noChild oneNumber 1 (returning 0 2)) ⟨⟨#[]⟩, ()⟩ fun r w' => ∃ k l xs,
      r = some k ∧ w'.store.node k = .ret l ∧ w'.store.node l = .list .expressions xs ∧
      xs.map w'.store.node = [slotNode 0, slotNode 1] := by
  have hlabels : slotLabels oneNumber 1 0 1 = .ok [.text "slot0"] := rfl
  have hts : [Label.text "slot0"].mapM Label.asText = .ok ["slot0"] := rfl
  exact ⟨hlabels, return_listed_without_last noChild 1 0 1 hlabels hts⟩

end LuaLift.Proofs
