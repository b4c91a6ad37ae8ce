import LuaLift.Flow.Branches
import LuaLift.Proofs.BranchPrograms

/-! # Where branches meet

The search for the block where the branches of an `if` meet goes through the blocks and keeps the
farthest one that was led to. On compiled programs it finds the place where the `if` goes on: first
it may take the `else` branch for that place, until a block of the first branch leads behind it. -/
namespace LuaLift.Proofs
open Tree Flow

variable {s : Store} {block : Nat → NodeId} {last : Nat} {w : Work Unit} {a b e i j k m n p r next : Nat}
  {held : List NodeId} {exit : Node}

/-! ## Segments -/

theorem segment_cons (h : a < b) : segment block a b = block a :: segment block (a + 1) b := by
  obtain ⟨n, hn⟩ : ∃ n, b - a = n + 1 := ⟨b - a - 1, by omega⟩
  rw [segment, segment, hn, List.range'_succ, List.map_cons, show b - (a + 1) = n by omega]

@[simp] theorem segment_self : segment block a a = [] := by simp [segment]

theorem segment_append (ha : a ≤ m) (hb : m ≤ b) :
    segment block a m ++ segment block m b = segment block a b := by
  obtain ⟨n, rfl⟩ := Nat.le.dest ha
  obtain ⟨n', rfl⟩ := Nat.le.dest hb
  simp only [segment, ← List.map_append]
  rw [Nat.add_sub_cancel_left, Nat.add_sub_cancel_left, List.range'_append_1, Nat.add_assoc,
    Nat.add_sub_cancel_left]

theorem drop_segment : (segment block a b).drop k = segment block (a + k) b := by
  refine List.ext_getElem? fun i => ?_
  rw [List.getElem?_drop, getElem?_segment, getElem?_segment, Nat.add_assoc]

theorem take_segment (h : a + k ≤ b) : (segment block a b).take k = segment block a (a + k) := by
  have hbetween : between (segment block a b) 0 k = segment block (a + 0) (a + k) := between_segment h
  rwa [between, List.drop_zero] at hbetween

/-! ## Exits -/

theorem LeadsTo.targetOrStop {x : NodeId} (h : LeadsTo exit x) : Returns (targetOrStop exit) w x w := by
  cases h <;> rfl

theorem LeadsTo.targetOf {x : NodeId} (h : LeadsTo exit x) (hstop : ∀ y, exit ≠ .stop y) :
    Returns (targetOf exit) w x w := by
  cases h with
  | test => rfl
  | jump => rfl
  | stop => exact absurd rfl (hstop _)

theorem LeadsTo.det {x y : NodeId} (h : LeadsTo exit x) (h' : LeadsTo exit y) : x = y := by
  cases h <;> cases h' <;> rfl

def isLeaving : Node → Bool
  | .jump .. => true
  | _ => false

/-! ## The search -/

theorem meetingFrom_cons (hb : InOrder w.store block last) (hblock : BlockOf w.store (block k) held exit)
    (hexit : LeadsTo exit (block j)) (hj : j ≤ last) (hm : m ≤ last) (rest : List NodeId) :
    meetingFrom (block m) (block k :: rest) w =
      if isLeaving exit = true ∧ j = m then .ok (block m) w
      else if m < j then meetingFrom (block j) rest w else meetingFrom (block m) rest w := by
  have hnext : (indexOf (block j) >>= fun there => indexOf (block m) >>= fun here =>
      if there > here then meetingFrom (block j) rest else meetingFrom (block m) rest) w =
      if m < j then meetingFrom (block j) rest w else meetingFrom (block m) rest w := by
    rw [(hb.indexOf hj (.refl _)).step, (hb.indexOf hm (.refl _)).step]
    by_cases hmj : m < j
    · rw [if_pos ((hb.index_lt_iff hm hj).mpr hmj), if_pos hmj]
    · rw [if_neg (by rwa [gt_iff_lt, hb.index_lt_iff hm hj]), if_neg hmj]
  rw [meetingFrom, hblock.exitNode.step, hexit.targetOrStop.step]
  cases hexit with
  | test => simpa [isLeaving] using hnext
  | stop =>
    obtain ⟨x, hx⟩ : ∃ x, block j = ⟨x + 1⟩ := by
      have hne := hb.ne_absent hj
      rcases hx : block j with ⟨_ | x⟩
      · exact absurd hx hne
      · exact ⟨x, rfl⟩
    rw [hx] at hnext ⊢
    simpa [isLeaving] using hnext
  | jump =>
    by_cases hjm : j = m
    · subst hjm
      simp [isLeaving]
      rfl
    · have hne : block j ≠ block m := fun he => hjm ((hb.inj hj hm).mp he)
      simpa [isLeaving, hjm, hne] using hnext

/-- Once the place where the branches meet is the farthest, the search ends with it: at the first
block that jumps there, or at the end of the list. -/
theorem meetingFrom_found (hb : InOrder w.store block last) (hnext : next ≤ last) (hi : i ≤ r) (hr : r ≤ e)
    (hahead : ∀ k, i ≤ k → k < r → ∃ held exit j, BlockOf w.store (block k) held exit ∧
      LeadsTo exit (block j) ∧ j ≤ next)
    (hend : r = e ∨ i < r ∧ ∃ held exit, BlockOf w.store (block (r - 1)) held exit ∧
      LeadsTo exit (block next) ∧ isLeaving exit = true) :
    Returns (meetingFrom (block next) (segment block i e)) w (block next) w := by
  induction hn : r - i generalizing i with
  | zero =>
    obtain rfl : r = e := hend.resolve_right fun h => by omega
    obtain rfl : i = r := by omega
    rw [segment_self]
    rfl
  | succ n ih =>
    obtain ⟨held, exit, j, hblock, hexit, hj⟩ := hahead i (Nat.le_refl _) (by omega)
    rw [segment_cons (by omega), Returns, meetingFrom_cons hb hblock hexit (by omega) hnext]
    split
    · rfl
    · rename_i hleave
      rw [if_neg (by omega)]
      refine ih (by omega) (fun k hk => hahead k (by omega)) ?_ (by omega)
      refine hend.imp_right ?_
      rintro ⟨-, held', exit', hblock', hexit', hleave'⟩
      refine ⟨?_, held', exit', hblock', hexit', hleave'⟩
      refine Nat.lt_of_le_of_ne (by omega) ?_
      rintro rfl
      obtain ⟨rfl, rfl⟩ := hblock.det hblock'
      exact hleave ⟨hleave', (hb.inj (by omega) hnext).mp (hexit.det hexit')⟩

theorem meetingFrom_passes (hb : InOrder w.store block last) (hnext : next ≤ last) (hi : i < m)
    (hm : m < next)
    (hahead : ∀ k, i ≤ k → k < m → ∃ held exit j, BlockOf w.store (block k) held exit ∧
      LeadsTo exit (block j) ∧
      (j < m ∨ j = next))
    (hend : ∃ held exit, BlockOf w.store (block (m - 1)) held exit ∧ LeadsTo exit (block next)) (hme : m ≤ e)
    (hfound : ∀ k, i < k → k ≤ m → Returns (meetingFrom (block next) (segment block k e)) w (block next) w) :
    Returns (meetingFrom (block m) (segment block i e)) w (block next) w := by
  induction hn : m - i generalizing i with
  | zero => omega
  | succ n ih =>
    obtain ⟨held, exit, j, hblock, hexit, hj⟩ := hahead i (Nat.le_refl _) (by omega)
    rw [segment_cons (by omega), Returns, meetingFrom_cons hb hblock hexit (by omega) (by omega),
      if_neg (by omega)]
    rcases hj with hj | rfl
    · rw [if_neg (by omega)]
      refine ih (Nat.lt_of_le_of_ne (by omega) ?_) (fun k hk => hahead k (by omega))
        (fun k hk => hfound k (by omega)) (by omega)
      rintro rfl
      obtain ⟨held', exit', hblock', hexit'⟩ := hend
      obtain ⟨rfl, rfl⟩ := hblock.det hblock'
      have := (hb.inj (by omega) hnext).mp (hexit.det hexit')
      omega
    · rw [if_pos hm]
      exact hfound (i + 1) (by omega) (by omega)

/-! ## The region of an `if` -/

namespace Program
variable {c : NodeId} {yes no : Program} {closed : Bool}

section
variable (h : ForkedAt w.store block c yes no closed held p next) (hb : InOrder w.store block last)
  (hq : (branch c yes no done).WellFormed w.store) (hlast : next ≤ last)
include h hb hq hlast

theorem ForkedAt.meeting (hnext : p + (branch c yes no done).width ≤ next)
    (he : p + (branch c yes no done).width ≤ e)
    (hclosed : closed = true → p + (branch c yes no done).width = e) :
    Returns (meeting (segment block p e)) w (block next) w := by
  have hc := compiledAt_branch_last.mpr h
  have hpos := yes.width_pos
  have hwidth : (branch c yes no done).width = 1 + yes.width + no.extent := rfl
  have hend : p + (branch c yes no done).width = e ∨ ∃ held exit,
      BlockOf w.store (block (p + (branch c yes no done).width - 1)) held exit ∧
        LeadsTo exit (block next) ∧ isLeaving exit = true := by
    obtain ⟨held', exit, -, hblock, ho⟩ := hc.last hq (.inl rfl)
    cases closed with
    | true => exact .inl (hclosed rfl)
    | false =>
      obtain ⟨closes, rfl⟩ := ho
      exact .inr ⟨held', _, hblock, .jump, rfl⟩
  have hfound : ∀ i, p < i → i < p + (branch c yes no done).width →
      Returns (meetingFrom (block next) (segment block i e)) w (block next) w := by
    intro i hi hi'
    refine meetingFrom_found hb hlast (Nat.le_of_lt hi') he (fun k hk hk' => ?_) (hend.imp_right
      fun h => ⟨hi', h⟩)
    obtain ⟨held, exit, j, hblock, hexit, -, hj, -⟩ := hc.leadsAhead hnext (k := k) (by omega) hk'
    exact ⟨held, exit, j, hblock, hexit, by omega⟩
  obtain ⟨slot, hstart⟩ := h.start
  rw [segment_cons (by omega)]
  change meetingFrom (block p) (block p :: _) w = _
  cases hd : no.isDone with
  | true =>
    rw [if_pos hd] at hstart
    rw [meetingFrom_cons hb hstart .test hlast (by omega), if_neg (by simp [isLeaving]), if_pos (by omega)]
    exact hfound (p + 1) (by omega) (by omega)
  | false =>
    have hpos' := no.width_pos
    rw [extent_eq hd] at hwidth
    rw [hd, if_neg (by simp)] at hstart
    rw [meetingFrom_cons hb hstart .test (by omega) (by omega), if_neg (by simp [isLeaving]),
      if_pos (by omega)]
    refine meetingFrom_passes hb hlast (by omega) (by omega) (fun k hk hk' => ?_) ?_ (by omega)
      fun i hi hi' => hfound i (by omega) (by omega)
    · obtain ⟨held, exit, j, hblock, hexit, -, hj, -⟩ := h.first.leadsAhead (k := k) (by omega) hk hk'
      exact ⟨held, exit, j, hblock, hexit, hj⟩
    · obtain ⟨held, exit, -, hblock, ho⟩ := h.first.last hq.2.2.2.1 (.inl hq.2.2.1)
      exact ⟨held, exit, hblock, ho.leadsTo⟩

/-- The region of an `if` ends where it goes on, or with the list if it goes on behind that. -/
theorem ForkedAt.regionAt? {outer : NodeId} (ha : a ≤ p) (hr : p + (branch c yes no done).width = r)
    (hplace : closed = false ∧ next = r ∧ r < e ∨ r = e ∧ e ≤ next ∧ outer = block next) :
    Returns (regionAt? (segment block a e) (p - a) outer) w
      (some ⟨segment block (p + 1) r, block next, r - a⟩) w := by
  have hpos := (branch c yes no done).width_pos
  have hmeet : Returns (Flow.meeting ((segment block a e).drop (p - a))) w (block next) w := by
    rw [drop_segment, Nat.add_sub_cancel' ha]
    refine h.meeting hb hq hlast (by omega) (by omega) fun hc => ?_
    rcases hplace with ⟨hc', -⟩ | ⟨he, -⟩
    · simp [hc] at hc'
    · omega
  have hbody : ((segment block a e).take (r - a)).drop (p - a + 1) = segment block (p + 1) r := by
    rw [← between, between_segment (by omega),
      show a + (p - a + 1) = p + 1 by omega, Nat.add_sub_cancel' (by omega)]
  refine hmeet.ofBind ?_
  rcases hplace with ⟨-, rfl, hlt⟩ | ⟨rfl, hle, rfl⟩
  · rw [hb.idxOf?_segment (by omega) hlt hlast]
    dsimp only
    rw [hbody]
    rfl
  · rw [List.idxOf?_eq_none_iff.mpr (hb.notMem_segment hle hlast)]
    dsimp only
    rw [length_segment, hbody, if_pos (by simp)]
    rfl

end

end Program

end LuaLift.Proofs
