import LuaLift.Lift.Exit
import LuaLift.Proofs.Lifting
import LuaLift.Proofs.Tiling

/-! # Where blocks lead

The last instruction of a block says at which addresses control goes on (`wayFrom`). Its exit is a
node that leads to the blocks that start there (`Leads`), and each of these blocks counts one more
entry. -/
namespace LuaLift.Proofs
open Bytecode Tree Pass Lift

/-- Where control goes on behind a block, as addresses. -/
inductive Way where
  | flow (next : Int)
  | jump (target : Int) (closes : Bool)
  | test (onTrue onFalse : Int)
  | iterate (body wayOut : Int)
  | count (body wayOut : Int)
deriving DecidableEq

def Way.targets : Way → List Int
  | flow a | jump a _ => [a]
  | test a b | iterate a b | count a b => [a, b]

/-- The way behind a block whose last instruction stands at an address. -/
def wayFrom (code : List Instruction) (a : Int) : Way :=
  let destination := (destinationAt code a).getD (a + 1)
  match opAt code a with
  | some .jmp | some .uclo | some .isnext =>
    if (opAt code (a - 1)).any isTest then .test (a + 1) destination
    else if opAt code a = some .uclo ∧ destination = a + 1 then .flow (a + 1)
    else .jump destination (opAt code a = some .uclo)
  | some .iterl | some .iiterl | some .jiterl => .iterate destination (a + 1)
  | some .forl | some .iforl | some .jforl => .count destination (a + 1)
  | _ => .flow (a + 1)

/-- How many of the last instructions of a block belong to its exit. -/
def folded (code : List Instruction) (a : Int) : Int :=
  match opAt code a with
  | some .jmp | some .uclo | some .isnext => if (opAt code (a - 1)).any isTest then 2 else 1
  | some .iterl | some .iiterl | some .jiterl => 2
  | some .forl | some .iforl | some .jforl | some .fori => 1
  | _ => 0

/-- What the way behind a block can be, by the last instruction. -/
inductive WayBehind (code : List Instruction) (a : Int) : Way → Prop
  | flow : WayBehind code a (.flow (a + 1))
  | jump : folded code a = 1 → WayBehind code a
      (.jump ((destinationAt code a).getD (a + 1)) (opAt code a = some .uclo))
  | test : WayBehind code a (.test (a + 1) ((destinationAt code a).getD (a + 1)))
  | iterate : (opAt code a).any isIteratorEnd = true →
      WayBehind code a (.iterate ((destinationAt code a).getD (a + 1)) (a + 1))
  | count : (opAt code a).any isCountEnd = true →
      WayBehind code a (.count ((destinationAt code a).getD (a + 1)) (a + 1))

theorem wayBehind_wayFrom (code : List Instruction) (a : Int) :
    WayBehind code a (wayFrom code a) := by
  have hjump : folded code a = (if (opAt code (a - 1)).any isTest then 2 else 1) →
      WayBehind code a
        (if (opAt code (a - 1)).any isTest then .test (a + 1) ((destinationAt code a).getD (a + 1))
        else if opAt code a = some .uclo ∧ (destinationAt code a).getD (a + 1) = a + 1 then
          .flow (a + 1)
        else .jump ((destinationAt code a).getD (a + 1)) (opAt code a = some .uclo)) := by
    intro hf
    split
    · exact .test
    · split
      · exact .flow
      · exact .jump (by simp_all)
  unfold wayFrom
  split
  case h_1 ho | h_2 ho | h_3 ho => exact hjump (by simp only [folded, ho])
  case h_4 ho | h_5 ho | h_6 ho => exact .iterate (by rw [ho]; rfl)
  case h_7 ho | h_8 ho | h_9 ho => exact .count (by rw [ho]; rfl)
  case h_10 => exact .flow

/-- A node leads where a way says, if `at_ a i` says that block `i` starts at address `a`. -/
inductive Leads (at_ : Int → NodeId → Prop) : Way → Node → Prop
  | flow {a t} : at_ a t → Leads at_ (.flow a) (.jump .flow t false)
  | jump {a t closes} : at_ a t → Leads at_ (.jump a closes) (.jump .jump t closes)
  | test {a b t f c slot} : at_ a t → at_ b f → Leads at_ (.test a b) (.test c t f slot)
  | iterate {a b t o vs cs} : at_ a t → at_ b o → Leads at_ (.iterate a b) (.iterate vs cs t o)
  | count {a b t o i cs} : at_ a t → at_ b o → Leads at_ (.count a b) (.count i cs t o)

theorem Leads.mono {at_ at' : Int → NodeId → Prop} {way : Way} {n : Node} (h : Leads at_ way n)
    (hat : ∀ a i, at_ a i → at' a i) : Leads at' way n := by
  cases h with
  | flow ha => exact .flow (hat _ _ ha)
  | jump ha => exact .jump (hat _ _ ha)
  | test ha hb => exact .test (hat _ _ ha) (hat _ _ hb)
  | iterate ha hb => exact .iterate (hat _ _ ha) (hat _ _ hb)
  | count ha hb => exact .count (hat _ _ ha) (hat _ _ hb)

/-- The parts of an exit. -/
def ExitParts (s : Store) : Node → Prop
  | .test c _ _ _ => Has s Node.isExpression c
  | .iterate vs cs _ _ => Has s (Node.isList .targets) vs ∧ Has s (Node.isList .expressions) cs
  | .count i cs _ _ => Has s isIdentifierNode i ∧ Has s (Node.isList .expressions) cs
  | _ => True

theorem ExitParts.keep {s s' : Store} {n : Node} (hk : Keeps s s')
    (hsize : s.cells.size ≤ s'.cells.size) (h : ExitParts s n) : ExitParts s' n := by
  cases n with
  | test c _ _ _ => exact Has.keep hk hsize h
  | iterate vs cs _ _ => exact ⟨h.1.keep hk hsize, h.2.keep hk hsize⟩
  | count i cs _ _ => exact ⟨h.1.keep hk hsize, h.2.keep hk hsize⟩
  | _ => trivial

/-! ## Entries -/

/-- A block that more exits lead to. -/
def enter (targets : List Int) (b : Block) : Block :=
  { b with entries := b.entries + (targets.count b.first : Nat) }

theorem enter_enter (as bs : List Int) (b : Block) : enter bs (enter as b) = enter (as ++ bs) b := by
  simp [enter, List.count_append, Int.add_assoc]

theorem enter_perm {as bs : List Int} (h : as.Perm bs) (b : Block) : enter as b = enter bs b := by
  rw [enter, enter, h.count_eq]

/-- The blocks are in the store as `f` says. -/
def Framed (s : Store) (blocks : List NodeId) (f : Nat → Block) : Prop :=
  ∀ k i, blocks[k]? = some i → s.cell i = ⟨.block (f k), none, false⟩

variable {s s' : Store} {blocks : List NodeId} {f g : Nat → Block} {w : Work Unit}

theorem Framed.node (h : Framed s blocks f) {k : Nat} {i : NodeId} (hk : blocks[k]? = some i) :
    s.node i = .block (f k) := by
  rw [Store.node, h k i hk]

theorem Framed.inside (h : Framed s blocks f) {i : NodeId} (hi : i ∈ blocks) :
    i.index < s.cells.size := by
  obtain ⟨k, hk⟩ := List.mem_iff_getElem?.mp hi
  exact inside_of_node (by rw [h.node hk]; simp)

theorem Framed.set (h : Framed s blocks f) (hn : blocks.Nodup) {k : Nat} {i : NodeId}
    (hk : blocks[k]? = some i) (ho : ∀ j < blocks.length, j ≠ k → g j = f j) :
    Framed (s.setNode i (.block (g k))) blocks g := by
  intro j i' hj
  by_cases hjk : j = k
  · subst hjk
    obtain rfl : i' = i := Option.some.inj (hj.symm.trans hk)
    rw [cell_setNode_self (h.inside (List.mem_of_getElem? hk)), h j i' hj]
  · have hjl := (List.getElem?_eq_some_iff.mp hj).1
    have hne : i' ≠ i := by
      rintro rfl
      exact hjk ((List.getElem?_inj hjl hn).mp (hj.trans hk.symm))
    rw [cell_setNode_of_ne hne, ho j hjl hjk]
    exact h j i' hj

theorem Framed.keeps (h : Framed s blocks f) (ha : Alters (· ∈ blocks) s s') : Keeps s s' := by
  intro i hi
  have hin : s.node i ≠ .absent := by
    intro h
    simp [h, isInner] at hi
  refine ha.cell i (inside_of_node hin) fun hm => ?_
  obtain ⟨k, hk⟩ := List.mem_iff_getElem?.mp hm
  simp [h.node hk, isInner] at hi

theorem Framed.grow (h : Framed s blocks f) (hg : Grows s s') : Framed s' blocks f := by
  intro k i hk
  rw [hg.cell i (h.inside (List.mem_of_getElem? hk))]
  exact h k i hk

/-! ## Exits -/

/-- Each block is found at its first address, and no two blocks start at the same one. -/
structure Indexed (starts : Starts) (blocks : List NodeId) (f : Nat → Block) : Prop where
  nodup : blocks.Nodup
  find : ∀ k i, blocks[k]? = some i →
    starts.find? (·.1 = (f k).first) = some ((f k).first, i)
  inj : ∀ j k, j < blocks.length → k < blocks.length → (f j).first = (f k).first → j = k

/-- A block starts at an address. -/
def StartsAt (blocks : List NodeId) (f : Nat → Block) (a : Int) (i : NodeId) : Prop :=
  ∃ k, blocks[k]? = some i ∧ (f k).first = a

variable {starts : Starts} {a : Int}

/-- An address at which a block starts. -/
def Begins (blocks : List NodeId) (f : Nat → Block) (a : Int) : Prop :=
  ∃ k < blocks.length, (f k).first = a

theorem succeeds_enterBlock (hi : Indexed starts blocks f) (hf : Framed w.store blocks f)
    (ha : Begins blocks f a) :
    Succeeds (enterBlock starts a) w fun i w' => StartsAt blocks f a i ∧
      Framed w'.store blocks (fun k => enter [a] (f k)) ∧ Alters (· ∈ blocks) w.store w'.store := by
  obtain ⟨k, hk, rfl⟩ := ha
  have hget := List.getElem?_eq_getElem hk
  unfold enterBlock
  rw [hi.find k _ hget]
  refine (succeeds_modifyBlock (hf.node hget) (.pure ⟨⟨k, hget, rfl⟩, ?_, ?_⟩)).bind
  · have hentry : ({ f k with entries := (f k).entries + 1 } : Block) = enter [(f k).first] (f k) := by
      simp [enter]
    rw [hentry]
    refine hf.set (g := fun j => enter [(f k).first] (f j)) hi.nodup hget fun j hjl hj => ?_
    have hne : (f k).first ≠ (f j).first := fun he => hj (hi.inj j k hjl hk he.symm)
    simp [enter, hne]
  · exact alters_setNode (List.mem_of_getElem? hget)

/-- What making an exit does: the exit is new, leads where `way` says, and the blocks there count
it. If `valid` holds, so do the rules for its parts. -/
structure Exits (blocks : List NodeId) (f : Nat → Block) (valid : Prop) (way : Way)
    (w : Work Unit) (e : NodeId) (w' : Work Unit) : Prop where
  framed : Framed w'.store blocks fun k => enter way.targets (f k)
  alters : Alters (· ∈ blocks) w.store w'.store
  fresh : w.store.cells.size ≤ e.index
  shown : ∃ n, w'.store.cell e = ⟨n, none, false⟩ ∧ Leads (StartsAt blocks f) way n ∧
    (valid → ExitParts w'.store n)

variable {valid : Prop} {i : Instruction} {d : Int} {p : Prototype}

theorem succeeds_addExit {w1 : Work Unit} {way : Way} {n : Node}
    (hf : Framed w1.store blocks fun k => enter way.targets (f k))
    (ha : Alters (· ∈ blocks) w.store w1.store) (hl : Leads (StartsAt blocks f) way n)
    (hp : valid → ExitParts w1.store n) {size : Int} :
    Succeeds (add n >>= fun e => return (e, size)) w1 fun r w' =>
      Exits blocks f valid way w r.1 w' ∧ r.2 = size := by
  have hg := grows_push w1.store { node := n }
  refine (succeeds_addCell (.pure ⟨⟨hf.grow hg, ha.trans hg.alters, ha.size, ?_⟩, rfl⟩)).bind
  exact ⟨n, cell_push_self, hl, fun hv => (hp hv).keep hg.keeps hg.size⟩

theorem succeeds_slotList {α : Type} {kind : ListKind} {k : NodeId → Edit α} {first last : Int}
    {post : α → Work Unit → Prop} (hkind : kind = .expressions ∨ kind = .targets)
    (h : ∀ l w', Grows w.store w'.store → (0 ≤ first → Has w'.store (Node.isList kind) l) →
      Succeeds (k l) w' post) :
    Succeeds (slots a first last >>= fun xs => addList kind xs >>= k) w post := by
  by_cases h0 : 0 ≤ first
  · refine Succeeds.next (makesAll_slots h0) fun xs w1 ⟨hg, hx⟩ => ?_
    have hlist : Makes (addList kind xs) w1 (Node.isList kind) := by
      rcases hkind with rfl | rfl
      · exact makes_expressions fun x hm => (hx x hm).expression
      · exact makes_list (by decide) rfl hx
    exact Succeeds.next hlist fun l w2 hl => h l w2 (hg.trans hl.1) fun _ => hl.2
  · have hslots : Succeeds (slots a first last) w fun _ w' => Grows w.store w'.store := by
      refine (Succeeds.mapM (fun _ v => Grows w.store v.store) (.refl _) ?_).mono fun _ _ hx => hx.2
      exact fun _ _ v _ hv => succeeds_addCell (hv.trans (grows_push _ _))
    refine hslots.next fun xs w1 hg => ?_
    have hlist : Succeeds (addList kind xs) w1 fun _ w' => Grows w1.store w'.store :=
      succeeds_addCell (grows_push _ _)
    exact hlist.next fun l w2 hg2 => h l w2 (hg.trans hg2) fun hle => absurd hle h0

section
variable (hi : Indexed starts blocks f) (hf : Framed w.store blocks f)
include hi hf

theorem succeeds_flowExit (hn : Begins blocks f (a + 1)) :
    Succeeds (flowExit starts a i) w fun r w' =>
      Exits blocks f valid (.flow (a + 1)) w r.1 w' ∧
        r.2 = if i.meaning = some .fori ∨ i.meaning = some .uclo then 1 else 0 := by
  refine (succeeds_enterBlock hi hf hn).next fun t w1 ⟨ht, hf1, ha1⟩ => ?_
  exact succeeds_addExit hf1 ha1 (.flow ht) fun _ => trivial

theorem succeeds_jumpExit (hcd : i.cd = some d) (hu : ¬ (i.meaning = some .uclo ∧ d = 0))
    (hd : Begins blocks f (jumpDestination a d)) :
    Succeeds (jumpExit starts a i) w fun r w' =>
      Exits blocks f valid (.jump (jumpDestination a d) (i.meaning = some .uclo)) w r.1 w' ∧
        r.2 = 1 := by
  have hjump : Succeeds (do
      let target ← enterBlock starts (jumpDestination a (← operand i.cd))
      return (← add (.jump .jump target (i.meaning = some .uclo)), 1)) w fun (r : Lift.Exit) w' =>
      Exits blocks f valid (.jump (jumpDestination a d) (i.meaning = some .uclo)) w r.1 w' ∧
        r.2 = 1 := by
    refine succeeds_operand hcd ?_
    refine (succeeds_enterBlock hi hf hd).next fun t w1 ⟨ht, hf1, ha1⟩ => ?_
    exact succeeds_addExit hf1 ha1 (.jump ht) fun _ => trivial
  unfold jumpExit
  by_cases hm : i.meaning = some .uclo
  · have hd0 : d ≠ 0 := fun h => hu ⟨hm, h⟩
    simp only [hm, decide_true, if_true] at hjump ⊢
    refine succeeds_operand hcd ?_
    rw [if_neg hd0]
    exact hjump
  · simp only [hm, decide_false] at hjump ⊢
    exact hjump

theorem succeeds_closingFlow (hcd : i.cd = some 0) (hm : i.meaning = some .uclo)
    (hn : Begins blocks f (a + 1)) :
    Succeeds (jumpExit starts a i) w fun r w' =>
      Exits blocks f valid (.flow (a + 1)) w r.1 w' ∧ r.2 = 1 := by
  unfold jumpExit
  simp only [hm, decide_true, if_true]
  refine succeeds_operand hcd ?_
  refine (succeeds_flowExit hi hf hn).mono fun r w1 hr => ⟨hr.1, ?_⟩
  rw [hr.2, if_pos (.inr hm)]

/-- An exit that leads two ways enters both blocks. -/
theorem succeeds_fork {x y : Int} {way : Way} {n : NodeId → NodeId → Node} {size : Int} {w0 : Work Unit}
    (ha : Alters (· ∈ blocks) w0.store w.store) (hx : Begins blocks f x) (hy : Begins blocks f y)
    (hway : [x, y].Perm way.targets)
    (hl : ∀ {i j}, StartsAt blocks f x i → StartsAt blocks f y j → Leads (StartsAt blocks f) way (n i j))
    (hp : valid → ∀ {i j} {w' : Work Unit}, Keeps w.store w'.store →
      w.store.cells.size ≤ w'.store.cells.size → ExitParts w'.store (n i j)) :
    Succeeds (do
      let i ← enterBlock starts x
      let j ← enterBlock starts y
      return (← add (n i j), size)) w fun (r : Lift.Exit) w' =>
      Exits blocks f valid way w0 r.1 w' ∧ r.2 = size := by
  refine (succeeds_enterBlock hi hf hx).next fun i w1 ⟨hi1, hf1, ha1⟩ => ?_
  refine (succeeds_enterBlock (f := fun k => enter _ (f k)) ⟨hi.nodup, hi.find, hi.inj⟩ hf1 hy).next
    fun j w2 ⟨hj2, hf2, ha2⟩ => ?_
  have ha' := ha1.trans ha2
  refine succeeds_addExit (fun k b hk => ?_) (ha.trans ha') (hl hi1 hj2) fun hv =>
    hp hv (hf.keeps ha') ha'.size
  have hboth := (enter_enter [x] [y] (f k)).trans (enter_perm hway _)
  simpa only [hboth] using hf2 k b hk

variable (hcd : i.cd = some d) (hd : Begins blocks f (jumpDestination a d)) (hn : Begins blocks f (a + 1))
include hcd hd hn

theorem succeeds_testExit {test : Instruction} (hl : Legible p test) (ht : isTest test.op = true) :
    Succeeds (testExit p starts a test i) w fun r w' =>
      Exits blocks f valid (.test (a + 1) (jumpDestination a d)) w r.1 w' ∧ r.2 = 2 := by
  have hrest : ∀ {c : NodeId} {w1 : Work Unit} (slot : Option Int), Grows w.store w1.store →
      Has w1.store Node.isExpression c → Succeeds (do
        let onFalse ← enterBlock starts (jumpDestination a (← operand i.cd))
        let onTrue ← enterBlock starts (a + 1)
        return (← add (.test c onTrue onFalse slot), 2)) w1 fun (r : Lift.Exit) w' =>
      Exits blocks f valid (.test (a + 1) (jumpDestination a d)) w r.1 w' ∧ r.2 = 2 := by
    intro c w1 slot hg hc
    refine succeeds_operand hcd ?_
    exact succeeds_fork hi (hf.grow hg) hg.alters hd hn (.swap ..) (fun hx hy => .test hy hx)
      fun _ _ _ _ hk hsize => hc.keep hk hsize
  have hm := hl.meaning
  have hshape : test.shape = test.op.shape := rfl
  unfold testExit
  generalize hop : test.op = o at *
  rw [hm]
  cases o with
  | istc | isfc =>
    obtain ⟨v, hv, -⟩ := hl.operandA (show test.shape.a = some .dst from hshape ▸ rfl)
    refine Succeeds.next (makes_unaryExpression hl hop rfl) fun c w1 hc => ?_
    exact succeeds_operand hv (hrest _ hc.1 hc.2)
  | ist | isf =>
    obtain ⟨v, hv, -⟩ := hl.operandCD (show test.shape.cd = some .var from hshape ▸ rfl)
    refine Succeeds.next (makes_unaryExpression hl hop rfl) fun c w1 hc => ?_
    exact succeeds_operand hv (hrest _ hc.1 hc.2)
  | islt | isge | isle | isgt | iseqv | isnev | iseqs | isnes | iseqn | isnen | iseqp | isnep =>
    exact Succeeds.next (makes_comparison hl hop rfl) fun c w1 hc => hrest _ hc.1 hc.2
  | _ => cases ht

theorem succeeds_iteratorExit {call : Instruction} {x b : Int}
    (hm : call.meaning = some .iterc ∨ call.meaning = some .itern) (hx : call.a = some x)
    (hb : call.b = some b) (hx3 : valid → 3 ≤ x) :
    Succeeds (iteratorExit starts a call i) w fun r w' =>
      Exits blocks f valid (.iterate (jumpDestination a d) (a + 1)) w r.1 w' ∧ r.2 = 2 := by
  refine (succeeds_require (by simpa using hm) ?_).bind
  refine succeeds_operand hx ?_
  refine succeeds_slotList (.inl rfl) fun cs w1 hg1 hcs => ?_
  refine succeeds_operand hb ?_
  refine succeeds_slotList (.inr rfl) fun vs w2 hg2 hvs => ?_
  refine succeeds_operand hcd ?_
  refine succeeds_fork hi ((hf.grow hg1).grow hg2) (hg1.trans hg2).alters hn hd (.swap ..)
    (fun ho ht => .iterate ht ho) fun hv _ _ _ hk hsize => ?_
  have hx3 := hx3 hv
  exact ⟨(hvs (by omega)).keep hk hsize, ((hcs (by omega)).grow hg2).keep hk hsize⟩

theorem succeeds_countExit {x : Int} (hx : i.a = some x) (hx0 : 0 ≤ x) :
    Succeeds (countExit starts a i) w fun r w' =>
      Exits blocks f valid (.count (jumpDestination a d) (a + 1)) w r.1 w' ∧ r.2 = 1 := by
  refine succeeds_operand hx ?_
  refine Succeeds.next (makes_slot (by omega)) fun v w1 ⟨hg1, hv⟩ => ?_
  refine succeeds_slotList (.inl rfl) fun cs w2 hg2 hcs => ?_
  refine succeeds_operand hcd ?_
  exact succeeds_fork hi ((hf.grow hg1).grow hg2) (hg1.trans hg2).alters hd hn .rfl
    (fun ht ho => .count ht ho)
    fun _ _ _ _ hk hsize => ⟨(hv.grow hg2).keep hk hsize, (hcs hx0).keep hk hsize⟩

end

end LuaLift.Proofs
