import LuaLift.Proofs.Writable

/-! # Valid programs can be written

Statements are written where none is open (`WritesStatement`), each between its own start and its
own end; what stands inside one is written as `Writable` says. By induction on the depth of the
tree both hold of every valid program (`writes_of_tree`). -/
namespace LuaLift.Proofs
open Tree Pass Lua

variable {s : Store} {i : NodeId} {k : Nat} {kind : StatementKind} {inner : NodeId → Write Unit}

/-- A statement is open, inside a list of statements, and no function waits for its name. -/
def Within (kind : StatementKind) (frames : List Lua.Frame) : Prop :=
  ∃ f fs, frames = f :: fs ∧ f.current = some kind ∧ f.functionName = none ∧ fs ≠ []

def InStatement (frames : List Lua.Frame) : Prop := ∃ kind, Within kind frames

/-- No statement is open in the innermost list of statements, the function that is written next
gets the name `name`, if any, and the frames around the list are `fs`. -/
structure Resting (s : Store) (name : Option NodeId) (fs : List Lua.Frame) (w : Work Draft) : Prop where
  trimmed : Trimmed s w.store
  frame : ∃ f, w.own.frames = f :: fs ∧ f.current = none ∧ f.functionName = name

/-- Statements have been written from `w` to `w'`. -/
structure Wrote (s : Store) (fs : List Lua.Frame) (w w' : Work Draft) : Prop where
  resting : Resting s none fs w'
  commands : ∃ cs, w'.own.commands.toList = w.own.commands.toList ++ cs ∧ Nested false cs

/-- A statement is written with an empty record of parts; it is the definition of the function
`name`, if any. -/
def WritesNamed (s : Store) (name : Option NodeId) (p : Write Unit) : Prop :=
  ∀ w fs, fs ≠ [] → w.own.done = [] → Resting s name fs w → Succeeds p w fun _ w' => Wrote s fs w w'

abbrev WritesStatement (s : Store) (p : Write Unit) : Prop := WritesNamed s none p

abbrev WritesDefinition (s : Store) (d : NodeId) (p : Write Unit) : Prop := WritesNamed s (some d) p

/-- A sequence of statements is written with any record of parts. -/
def WritesStatements (s : Store) (p : Write Unit) : Prop :=
  ∀ w fs, fs ≠ [] → Resting s none fs w → Succeeds p w fun _ w' => Wrote s fs w w'

variable {fs : List Lua.Frame} {F : List Lua.Frame → Prop} {xs : List NodeId} {f : Lua.Frame} {depth : Nat}
  {m n : Node} {b c d e r as es ss : NodeId} {w w' : Work Draft} {p : Write Unit}

theorem Wrote.refl (h : Resting s none fs w) : Wrote s fs w w :=
  ⟨h, [], by simp, .nil⟩

theorem Wrote.trans {w'' : Work Draft} (h : Wrote s fs w w') (h' : Wrote s fs w' w'') : Wrote s fs w w'' := by
  obtain ⟨cs, hcs, hn⟩ := h.commands
  obtain ⟨cs', hcs', hn'⟩ := h'.commands
  refine ⟨h'.resting, cs ++ cs', ?_, hn.append hn'⟩
  rw [hcs', hcs, List.append_assoc]

theorem Wrote.withDone (h : Wrote s fs w w') (d : List NodeId) :
    Wrote s fs w (withDone w' d) := ⟨⟨h.resting.trimmed, h.resting.frame⟩, h.commands⟩

/-! ## Start and end of a statement -/

/-- The state after the statement of the innermost list has started. -/
def started (kind : StatementKind) (f : Lua.Frame) (fs : List Lua.Frame) (w : Work Draft) : Work Draft :=
  { w with own := { w.own with
      frames := { f with current := some kind } :: fs, commands := w.own.commands.push (.start kind) } }

def finished (kind : StatementKind) (f : Lua.Frame) (fs : List Lua.Frame) (w : Work Draft) : Work Draft :=
  { w with own := { w.own with
      frames := { f with current := none } :: fs, commands := w.own.commands.push (.finish kind) } }

theorem returns_startStatement (hw : w.own.frames = f :: fs) (hf : f.current = none) :
    Returns (startStatement kind) w () (started kind f fs w) := by
  obtain ⟨store, commands, done, frames⟩ := w
  obtain rfl : frames = f :: fs := hw
  have hrequire : Returns (require (f.current == none) "a statement starts when none is open")
    (⟨store, commands, done, f :: fs⟩ : Work Draft) () ⟨store, commands, done, f :: fs⟩ :=
    .ofRequire (by simp [hf])
  exact Returns.ofBind (a := f) rfl (hrequire.ofBind rfl)

theorem returns_endStatement (hw : w.own.frames = f :: fs) (hf : f.current = some kind) :
    Returns (endStatement kind) w () (finished kind f fs w) := by
  obtain ⟨store, commands, done, frames⟩ := w
  obtain rfl : frames = f :: fs := hw
  have hrequire : Returns (require (f.current == some kind) "the statement that ends is the open one")
    (⟨store, commands, done, f :: fs⟩ : Work Draft) () ⟨store, commands, done, f :: fs⟩ :=
    .ofRequire (by simp [hf])
  exact Returns.ofBind (a := f) rfl (hrequire.ofBind rfl)

/-- The open statement ends. -/
def Ends (kind : StatementKind) (v w : Work Draft) : Prop := Returns (endStatement kind) v () w

theorem closes_endStatement : Closes s (Within kind) (Ends kind) (endStatement kind) := by
  rintro w hw ⟨f, fs, hframes, hf, -, -⟩
  have hend := returns_endStatement hframes hf
  exact hend.succeeds ⟨w, .refl hw, hend⟩

/-- What is added to a statement that has started, up to its end, makes a whole statement. -/
theorem wrote_statement {v : Work Draft} (hf : f.functionName = none)
    (hadds : Adds s (started kind f fs w) v) (hend : Ends kind v w') : Wrote s fs w w' := by
  have hframes : v.own.frames = { f with current := some kind } :: fs := hadds.frames
  obtain rfl := (hend.unique (returns_endStatement hframes rfl)).2
  obtain ⟨cs, hcs, hnested⟩ := hadds.commands
  refine ⟨⟨hadds.trimmed, _, rfl, rfl, hf⟩, .start kind :: cs ++ .finish kind :: [], ?_,
    .statement hnested .nil⟩
  simp [finished, hcs, started]

theorem writesStatement_start (h : Closes s (Within kind) (Ends kind) p) :
    WritesStatement s (startStatement kind >>= fun _ => p) := by
  rintro w fs hfs - ⟨hw, f, hframes, hcurrent, hname⟩
  refine Succeeds.bind ((returns_startStatement hframes hcurrent).succeeds ?_)
  refine (h (started kind f fs w) hw ⟨_, fs, rfl, rfl, hname, hfs⟩).mono ?_
  rintro _ w' ⟨v, hadds, hend⟩
  exact wrote_statement hname hadds hend

theorem returns_frame (hw : w.own.frames = f :: fs) : Returns frame w f w := by
  obtain ⟨store, commands, done, frames⟩ := w
  obtain rfl : frames = f :: fs := hw
  rfl

/-! ## Sequences of statements -/

theorem Looks.writes {α : Type} {Q : α → Prop} {p : Write α} {f : α → Write Unit} {name : Option NodeId}
    (h : Looks s Q p) (h' : ∀ a, Q a → WritesNamed s name (f a)) : WritesNamed s name (p >>= f) := by
  intro w fs hfs hdone hw
  obtain ⟨a, hp, ha⟩ := h w hw.trimmed
  exact Succeeds.bind (hp.succeeds (h' a ha w fs hfs hdone hw))

theorem writesStatement_put (t : String) (h : WritesStatement s p) :
    WritesStatement s (put t >>= fun _ => p) := by
  intro w fs hfs hdone hw
  let w1 : Work Draft := { w with own := { w.own with commands := w.own.commands.push (.text t) } }
  have hput : Returns (put t) w () w1 := rfl
  have htext : Wrote s fs w w1 := by
    refine ⟨⟨hw.trimmed, hw.frame⟩, [.text t], ?_, .text .nil⟩
    simp [w1]
  refine Succeeds.bind (hput.succeeds ((h w1 fs hfs hdone htext.resting).mono ?_))
  exact fun _ w' hw' => htext.trans hw'

theorem writesStatements_part (hi : i ≠ .absent) (h : WritesStatement s (inner i)) :
    WritesStatements s (part inner i) := by
  intro w fs hfs hw
  refine succeeds_part hi (fun _ d hv => hv.withDone d) (.refl hw) ?_
  exact (h (withDone w []) fs hfs rfl ⟨hw.trimmed, hw.frame⟩).mono fun _ v hv => ⟨hv.resting, hv.commands⟩

theorem writesStatements_forM (h : ∀ x ∈ xs, WritesStatements s (part inner x)) :
    WritesStatements s (xs.forM (part inner)) := by
  intro w fs hfs hw
  induction xs generalizing w with
  | nil => exact .pure (.refl hw)
  | cons x xs ih =>
    refine (h x List.mem_cons_self w fs hfs hw).next fun _ w1 h1 => ?_
    refine (ih (fun y hy => h y (List.mem_cons_of_mem _ hy)) w1 h1.resting).mono ?_
    exact fun _ w' h' => h1.trans h'

/-- Opens or closes a block, unless the frame is the outermost one. -/
def edge (c : Command) : Write Unit := do
  if (← own).frames.length > 1 then emit c

theorem writeStatements_eq (xs : List NodeId) : writeStatements inner xs = (do
    edge .openBlock
    modifyOwn fun d => { d with frames := {} :: d.frames }
    xs.forM (part inner)
    modifyOwn fun d => { d with frames := d.frames.drop 1 }
    edge .closeBlock) := by
  unfold writeStatements edge
  rw [bind_assoc]
  refine bind_congr fun d => ?_
  split <;> rfl

theorem returns_edge (c : Command) (store : Store) (commands : Array Command) (done : List NodeId)
    (frames : List Lua.Frame) : Returns (edge c) ⟨store, commands, done, frames⟩ ()
      ⟨store, if frames.length > 1 then commands.push c else commands, done, frames⟩ := by
  have hown : Returns own (⟨store, commands, done, frames⟩ : Work Draft) ⟨commands, done, frames⟩
    ⟨store, commands, done, frames⟩ := rfl
  refine hown.ofBind ?_
  split
  · exact rfl
  · exact rfl

/-- The statements of a list are written with a frame of their own, and in a block of their own
unless the list is the outermost one. -/
theorem succeeds_writeStatements (h : ∀ x ∈ xs, WritesStatements s (part inner x)) (hw : Trimmed s w.store)
    (hne : w.own.frames ≠ []) :
    Succeeds (writeStatements inner xs) w fun _ w' => Trimmed s w'.store ∧ w'.own.frames = w.own.frames ∧
      ∃ cs, Nested false cs ∧ w'.own.commands.toList = w.own.commands.toList ++
        (if w.own.frames.length > 1 then .openBlock :: cs ++ [.closeBlock] else cs) := by
  obtain ⟨store, commands, done, frames⟩ := w
  have hbody := writesStatements_forM h
    ⟨store, if frames.length > 1 then commands.push .openBlock else commands, done, {} :: frames⟩ frames
    hne ⟨hw, {}, rfl, rfl, rfl⟩
  obtain ⟨u, ⟨store', commands', done', _⟩, hrun, ⟨htrim, g, rfl, -, -⟩, cs, hcs, hnested⟩ := hbody
  have hall : Returns (writeStatements inner xs) ⟨store, commands, done, frames⟩ ()
      ⟨store', if frames.length > 1 then commands'.push .closeBlock else commands', done', frames⟩ := by
    rw [writeStatements_eq]
    refine (returns_edge _ store commands done frames).ofBind (Returns.ofBind (a := ()) rfl ?_)
    exact hrun.ofBind (Returns.ofBind (a := ()) rfl (returns_edge _ store' commands' done' frames))
  refine hall.succeeds ⟨htrim, rfl, cs, hnested, ?_⟩
  dsimp only at hcs ⊢
  split
  · rw [if_pos ‹_›] at hcs
    simp [hcs]
  · rw [if_neg ‹_›] at hcs
    exact hcs

theorem goesOn_writeStatements (h : ∀ x ∈ xs, WritesStatements s (part inner x)) :
    GoesOn s InStatement (writeStatements inner xs) := by
  rintro w hw ⟨kind, f, fs, hframes, -, -, hfs⟩
  refine (succeeds_writeStatements h hw (by simp [hframes])).mono ?_
  rintro _ w' ⟨htrim, hsame, cs, hnested, hcs⟩
  rw [if_pos (by simpa [hframes, List.length_pos_iff] using hfs)] at hcs
  exact ⟨⟨htrim, hsame, _, hcs, .block hnested .nil⟩, trivial⟩

/-! ## Functions -/

theorem closes_functionBody {P : Work Draft → Work Draft → Prop} (has : GoesOn s F (part inner as))
    (hss : GoesOn s F (part inner ss)) (h : Closes s F P p) :
    Closes s F P (do part inner as; put ")"; endLine; part inner ss; put "end"; p) := by
  refine has.closing <| (goesOn_put _).closing <| goesOn_endLine.closing ?_
  exact hss.closing <| (goesOn_put _).closing <| h

theorem goesOn_writeFunction (has : GoesOn s InStatement (part inner as))
    (hss : GoesOn s InStatement (part inner ss)) : GoesOn s InStatement (writeFunction inner as ss) := by
  rw [writeFunction_eq]
  rintro w hw ⟨kind, f, fs, hframes, hf⟩
  obtain ⟨current, name, isLocal⟩ := f
  obtain ⟨hcurrent, rfl, hfs⟩ := hf
  refine Succeeds.bind ((returns_frame hframes).succeeds ?_)
  have hbody : GoesOn s InStatement (functionWith inner ⟨current, none, isLocal⟩ as ss) :=
    (goesOn_put _).seq <| (closes_functionBody has hss closes_pure).goesOn
  exact hbody w hw ⟨kind, _, fs, hframes, hcurrent, rfl, hfs⟩

/-- A definition is a statement; its name is taken out of the frame before the parameters. -/
theorem writesDefinition_writeFunction (hd : GoesOn s (fun _ => True) (part inner d))
    (has : GoesOn s InStatement (part inner as)) (hss : GoesOn s InStatement (part inner ss)) :
    WritesDefinition s d (writeFunction inner as ss) := by
  rintro w fs hfs - ⟨hw, ⟨current, name, isLocal⟩, hframes, rfl, rfl⟩
  let F : List Lua.Frame → Prop := fun frames => frames = ⟨some .function, some d, isLocal⟩ :: fs
  let unnamed (v : Work Draft) : Work Draft :=
    { v with own := { v.own with frames := ⟨some .function, none, isLocal⟩ :: fs } }
  let P (v w' : Work Draft) : Prop := ∃ u, Adds s (unnamed v) u ∧ Ends .function u w'
  have hbody : Closes s F P (do
      modifyFrame ({ · with functionName := none })
      part inner as; put ")"; endLine; part inner ss; put "end"; endStatement .function) := by
    rintro v hv (hF : v.own.frames = _)
    have hunnamed : Returns (modifyFrame ({ · with functionName := none })) v () (unnamed v) := by
      obtain ⟨store, commands, done, frames⟩ := v
      obtain rfl : frames = _ := hF
      rfl
    have hrest :=
      closes_functionBody (has.weaken fun _ h => ⟨.function, h⟩) (hss.weaken fun _ h => ⟨.function, h⟩)
      closes_endStatement (unnamed v) hv ⟨_, fs, rfl, rfl, rfl, hfs⟩
    exact Succeeds.bind (hunnamed.succeeds (hrest.mono fun _ w' h => ⟨v, .refl hv, h⟩))
  have hname : Closes s F P (do
      put "function "; part inner d; put "("; modifyFrame ({ · with functionName := none })
      part inner as; put ")"; endLine; part inner ss; put "end"; endStatement .function) := by
    exact (goesOn_put _).closing <| (hd.weaken fun _ _ => trivial).closing <| (goesOn_put _).closing <| hbody
  refine Succeeds.bind ((returns_frame hframes).succeeds ?_)
  refine Succeeds.bind ((returns_startStatement hframes rfl).succeeds ?_)
  have hall : Closes s F P (do
      if isLocal then put "local "
      put "function "; part inner d; put "("; modifyFrame ({ · with functionName := none })
      part inner as; put ")"; endLine; part inner ss; put "end"; endStatement .function) := by
    cases isLocal with
    | true => exact (goesOn_put _).closing <| hname
    | false => exact hname
  refine (hall (started .function ⟨none, some d, isLocal⟩ fs w) hw rfl).mono ?_
  rintro _ w' ⟨v, hv, u, hu, hend⟩
  refine wrote_statement (f := ⟨none, none, isLocal⟩) rfl ⟨hu.trimmed, hu.frames, ?_⟩ hend
  obtain ⟨cs, hcs, hnested⟩ := hv.commands
  obtain ⟨cs', hcs', hnested'⟩ := hu.commands
  refine ⟨cs ++ cs', ?_, hnested.append hnested'⟩
  rw [hcs', ← List.append_assoc]
  exact congrArg (· ++ cs') hcs

theorem writesDefinition_part (hi : i ≠ .absent) (h : WritesDefinition s d (inner i)) :
    WritesDefinition s d (part inner i) := by
  intro w fs hfs hdone hw
  unfold Succeeds Returns
  rw [part_eq hi, hdone]
  have hfresh : Succeeds (fresh (inner i)) (withDone w [i]) fun _ v => Wrote s fs w v :=
    succeeds_fresh (fun _ d hv => hv.withDone d)
      ((h (withDone w []) fs hfs rfl ⟨hw.trimmed, hw.frame⟩).mono fun _ v hv => ⟨hv.resting, hv.commands⟩)
  exact Succeeds.bind ⟨(), _, by rw [leaveOut, ← hdone]; rfl, hfresh⟩

/-! ## Statements of each kind -/

theorem Closes.ofParts (h : ∀ x ∈ n.children, GoesOn s InStatement (part inner x))
    (hp : (∀ x ∈ n.children, GoesOn s (Within kind) (part inner x)) → Closes s (Within kind) (Ends kind) p) :
    WritesStatement s (startStatement kind >>= fun _ => p) :=
  writesStatement_start (hp fun x hx => (h x hx).weaken fun _ hF => ⟨kind, hF⟩)

theorem writesStatement_writeIf {t : NodeId} (he : isListNode (s.node e) = true)
    (h : ∀ x ∈ (Node.ifElse c t xs e).children, GoesOn s InStatement (part inner x)) :
    WritesStatement s (writeIf inner c t xs e) := by
  refine Closes.ofParts h fun h => ?_
  simp only [Node.children, List.cons_append, List.forall_mem_cons, List.forall_mem_append, List.not_mem_nil,
    false_implies, implies_true, and_true] at h
  obtain ⟨hc, ht, hxs, he'⟩ := h
  refine (goesOn_put _).closing <| hc.closing <| (goesOn_put _).closing ?_
  refine goesOn_endLine.closing <| ht.closing <| (goesOn_forM hxs).closing ?_
  have hend : Closes s (Within .ifElse) (Ends .ifElse) (do put "end"; endStatement .ifElse) :=
    (goesOn_put _).closing <| closes_endStatement
  refine (looks_items he).goes.closes fun ys _ => ?_
  split
  · exact (goesOn_leaveOut e).closing <| hend
  · exact (goesOn_put _).closing <| goesOn_endLine.closing <| he'.closing <| hend

theorem writesStatement_writeReturn {vs : NodeId}
    (h : ∀ x ∈ (Node.ret vs).children, GoesOn s InStatement (part inner x)) :
    WritesStatement s (writeReturn inner vs) := by
  refine Closes.ofParts h fun h => (goesOn_put _).closing ?_
  exact (h vs (by simp [Node.children])).closing <| closes_endStatement

theorem writesStatement_writeWhile
    (h : ∀ x ∈ (Node.whileLoop c b).children, GoesOn s InStatement (part inner x)) :
    WritesStatement s (writeWhile inner c b) := by
  refine Closes.ofParts h fun h => (goesOn_put _).closing ?_
  refine (h c (by simp [Node.children])).closing <| (goesOn_put _).closing ?_
  refine goesOn_endLine.closing <| (h b (by simp [Node.children])).closing ?_
  exact (goesOn_put _).closing <| closes_endStatement

theorem writesStatement_writeRepeat
    (h : ∀ x ∈ (Node.repeatLoop c b).children, GoesOn s InStatement (part inner x)) :
    WritesStatement s (writeRepeat inner c b) := by
  refine Closes.ofParts h fun h => (goesOn_put _).closing <| goesOn_endLine.closing ?_
  refine (h b (by simp [Node.children])).closing <| (goesOn_put _).closing ?_
  exact (h c (by simp [Node.children])).closing <| closes_endStatement

theorem writesStatement_writeFor {v : NodeId} {sign : String}
    (h : ∀ x ∈ n.children, GoesOn s InStatement (part inner x)) (hv : v ∈ n.children)
    (hes : es ∈ n.children) (hb : b ∈ n.children) : WritesStatement s (writeFor inner kind v sign es b) := by
  refine Closes.ofParts h fun h => (goesOn_put _).closing <| (h v hv).closing ?_
  refine (goesOn_put _).closing <| (h es hes).closing <| (goesOn_put _).closing ?_
  exact goesOn_endLine.closing <| (h b hb).closing <| (goesOn_put _).closing <| closes_endStatement

section
variable {f : NodeId} (has : isListNode (s.node as) = true)
  (hkey : ∀ t x, s.node f = .element t x → isSpellable s (s.node x) = true)
  (htable : ∀ t x, s.node f = .element t x → GoesOn s InStatement (part inner t))
  (h : ∀ x ∈ (Node.call f as).children, GoesOn s InStatement (part inner x))
include has hkey htable h

theorem writesStatement_writeCall : WritesStatement s (writeCall inner f as) := by
  have hcall : WritesStatement s (do startStatement .call; callWith inner true f as) := by
    refine Closes.ofParts h fun h => ?_
    refine closes_callWith has hkey (fun t x hx => (htable t x hx).weaken fun _ hF => ⟨_, hF⟩) ?_ ?_
      closes_endStatement
    · exact h f (by simp [Node.children])
    · exact h as (by simp [Node.children])
  rw [writeCall_eq]
  rintro w fs hfs hdone hw
  obtain ⟨f', hframes, hcurrent, -⟩ := hw.frame
  refine Succeeds.bind ((returns_frame hframes).succeeds ?_)
  rw [hcurrent]
  exact hcall w fs hfs hdone hw

/-- A call inside a statement is no statement of its own. -/
theorem goesOn_writeCall : GoesOn s InStatement (writeCall inner f as) := by
  have hcall : GoesOn s InStatement (callWith inner false f as) := by
    refine (closes_callWith has hkey htable ?_ ?_ closes_pure).goesOn
    · exact h f (by simp [Node.children])
    · exact h as (by simp [Node.children])
  rw [writeCall_eq]
  rintro w hw ⟨kind, f', fs, hframes, hcurrent, hrest⟩
  refine Succeeds.bind ((returns_frame hframes).succeeds ?_)
  rw [hcurrent]
  exact hcall w hw ⟨kind, f', fs, hframes, hcurrent, hrest⟩

end

/-! ## Assignments -/

/-- Variables that functions are defined for. -/
def isSimple (s : Store) : Node → Bool
  | .identifier _ => true
  | .element table _ => isBuiltin (s.node table)
  | _ => false

theorem writesStatement_definition {isLocal : Bool} (xs ys : NodeId)
    (h : WritesDefinition s d (part inner e)) : WritesStatement s (do
      modifyFrame ({ · with functionName := some d, functionLocal := isLocal })
      part inner e
      leaveOut xs
      leaveOut ys) := by
  rintro ⟨store, commands, done, frames⟩ fs hfs hdone ⟨hw, f, rfl, hcurrent, -⟩
  have hrun := h ⟨store, commands, done, ⟨f.current, some d, isLocal⟩ :: fs⟩ fs hfs hdone ⟨hw, _,
    rfl, hcurrent, rfl⟩
  refine Succeeds.bind ⟨(), _, rfl, hrun.next fun _ w' hwrote => ?_⟩
  exact ⟨(), _, rfl, ⟨⟨hwrote.resting.trimmed, hwrote.resting.frame⟩, hwrote.commands⟩⟩

theorem writesStatement_writeAssignment {kind : AssignmentKind} {ds : NodeId}
    (hes : isListNode (s.node es) = true) (hds : isListNode (s.node ds) = true)
    (h : ∀ x ∈ (Node.assignment kind es ds).children, GoesOn s InStatement (part inner x))
    (hdefinition : ∀ e ∈ (s.node es).items, ∀ d ∈ (s.node ds).items, ∀ a b c,
      s.node e = .function a b c → isSimple s (s.node d) = true → WritesDefinition s d (part inner e)) :
    WritesStatement s (writeAssignment inner kind es ds) := by
  have hstart : WritesStatement s (do
      startStatement .assignment
      part inner ds
      put " = "
      part inner es
      endStatement .assignment) := by
    refine Closes.ofParts h fun h => (h ds (by simp [Node.children])).closing ?_
    exact (goesOn_put _).closing <| (h es (by simp [Node.children])).closing <| closes_endStatement
  have hnone : WritesStatement s (do
      if kind == .localDefinition then put "local "
      startStatement .assignment
      part inner ds
      put " = "
      part inner es
      endStatement .assignment) := by
    split
    · exact writesStatement_put _ hstart
    · exact hstart
  refine (looks_items hds).writes ?_
  rintro xs ⟨m, hxs⟩
  refine (looks_items hes).writes ?_
  rintro ys ⟨m', hys⟩
  -- Only a single function that goes to a single variable can be a definition.
  rcases xs with _ | ⟨d, _ | ⟨d', xs⟩⟩
  · exact hnone
  · rcases ys with _ | ⟨e, _ | ⟨e', ys⟩⟩
    · exact hnone
    · have hd : d ∈ (s.node ds).items := List.mem_of_mem_drop (hxs ▸ List.mem_cons_self)
      have he : e ∈ (s.node es).items := List.mem_of_mem_drop (hys ▸ List.mem_cons_self)
      refine (looks_node e).writes fun n hn => ?_
      cases n with
      | function a b c =>
        have hfunction := hdefinition e he d hd a b c (hn.node rfl)
        refine (looks_node d).writes fun n' hn' => ?_
        cases n' with
        | identifier x =>
          exact writesStatement_definition ds es (hfunction (by rw [hn'.node rfl]; rfl))
        | element table key =>
          refine (looks_isGlobal table key).writes fun simple hsimple => ?_
          cases simple with
          | true =>
            exact writesStatement_definition ds es (hfunction (by rw [hn'.node rfl]; exact hsimple.symm))
          | false => exact hnone
        | _ => exact hnone
      | _ => exact hnone
    · exact hnone
  · exact hnone

/-! ## Nodes -/

/-- How the nodes of a tree are written: those inside a statement, statements, and functions
that are definitions. -/
structure Writes (s : Store) (k : Nat) (i : NodeId) (p : Write Unit) : Prop where
  inline : isInline (s.node i) = true → GoesOn s InStatement p
  statement : (s.node i).isStatement = true → WritesStatement s p
  definition : ∀ a b c d, s.node i = .function a b c → isSimple s (s.node d) = true →
    WritableTree s (k - 1) d → WritesDefinition s d p

theorem goesOn_name (h : WritableTree s k i) (hdepth : k ≤ depth) (hsimple : isSimple s (s.node i) = true) :
    GoesOn s F (write depth i) := by
  obtain ⟨depth, rfl⟩ : ∃ d, depth = d + 1 := by
    cases k with
    | zero => exact h.elim
    | succ k => exact ⟨depth - 1, by omega⟩
  refine (looks_node i).goes.bind fun n hn => ?_
  have hspell := h.writable.spellable
  cases hi : s.node i with
  | identifier x =>
    obtain rfl : n = .identifier x := (hn.other (by rw [hi]; rfl)).trans hi
    exact goesOn_writeIdentifier x
  | element table key =>
    obtain rfl : n = .element table key := (hn.other (by rw [hi]; rfl)).trans hi
    rw [hi] at hsimple hspell
    have hkey := (h.child (c := key) (by simp [hi, Node.children])).writable.spellable
    have hglobal : isBuiltin (s.node table) = true := hsimple
    exact goesOn_writeGlobal hkey hglobal (by simpa [isSpellable, hglobal] using hspell)
  | _ =>
    rw [hi] at hsimple
    cases hsimple

section
variable {depth : Nat} (hpart : ∀ x, WritableTree s k x → Writes s k x (write depth x))
include hpart

theorem goesOn_writePart (hi : WritableTree s k i) (hinline : isInline (s.node i) = true) :
    GoesOn s InStatement (part (write depth) i) :=
  goesOn_part hi.writable.present ((hpart i hi).inline hinline)

theorem goesOn_inlineParts (hi : Writable s i) (hlist : (s.node i).isList .statements = false)
    (hparts : ∀ c ∈ (s.node i).children, WritableTree s k c) :
    ∀ c ∈ (s.node i).children, GoesOn s InStatement (part (write depth) c) :=
  fun c hc => goesOn_writePart hpart (hparts c hc) (hi.parts hlist c hc)

theorem goesOn_recordItems (hi : WritableTree s k i) (hlist : (s.node i).isList .records = true) :
    ∀ x ∈ (s.node i).items, GoesOn s InStatement (part (write depth) x) := by
  obtain ⟨xs, hxs⟩ := isList_eq hlist
  intro x hx
  rw [hxs] at hx
  have hmem : x ∈ (s.node i).children := by rw [hxs]; exact hx
  exact goesOn_writePart hpart (hi.child hmem) (hi.writable.parts (by rw [hxs]; rfl) x hmem)

theorem goesOn_table {a : NodeId} (hi : Writable s i) (hnode : s.node i = .table a r)
    (hparts : ∀ c ∈ (s.node i).children, WritableTree s k c) :
    GoesOn s InStatement (writeTable (write depth) a r) := by
  have hlists := hi.records a r hnode
  have ha : WritableTree s k a := hparts a (by simp [hnode, Node.children])
  have hr : WritableTree s k r := hparts r (by simp [hnode, Node.children])
  have hla := hlists a (by simp)
  have hlr := hlists r (by simp)
  have hspell := hi.spellable
  obtain ⟨xs, hxs⟩ := isList_eq hla
  obtain ⟨ys, hys⟩ := isList_eq hlr
  refine goesOn_writeTable (by rw [hxs]; rfl) (by rw [hys]; rfl) (goesOn_recordItems hpart ha hla)
    (goesOn_recordItems hpart hr hlr) fun x hx => ?_
  rw [hnode] at hspell
  have harray := List.all_eq_true.mp hspell x hx
  have hmem : x ∈ (s.node a).children := by
    rw [hxs] at hx ⊢
    exact hx
  cases hv : s.node x with
  | arrayRecord v =>
    have hv' : v ∈ (s.node x).children := by simp [hv, Node.children]
    have hx' := ha.child hmem
    exact ⟨v, rfl, goesOn_writePart hpart (hx'.child hv')
      (hx'.writable.parts (by rw [hv]; rfl) v hv')⟩
  | _ =>
    rw [hv] at harray
    cases harray

theorem goesOn_callTable {f : NodeId} (hnode : s.node i = .call f as)
    (hparts : ∀ c ∈ (s.node i).children, WritableTree s k c) (t x : NodeId) (hf : s.node f = .element t x) :
    isSpellable s (s.node x) = true ∧ GoesOn s InStatement (part (write depth) t) := by
  have htree : WritableTree s k f := hparts f (by simp [hnode, Node.children])
  have ht : t ∈ (s.node f).children := by simp [hf, Node.children]
  have hx : x ∈ (s.node f).children := by simp [hf, Node.children]
  exact ⟨(htree.child hx).writable.spellable,
    goesOn_writePart hpart (htree.child ht) (htree.writable.parts (by rw [hf]; rfl) t ht)⟩

theorem goesOn_list {kind : ListKind} (hi : Writable s i) (hnode : s.node i = .list kind xs)
    (hparts : ∀ c ∈ (s.node i).children, WritableTree s k c) (m : Nat) :
    GoesOn s InStatement (writeNode (write depth) (.list kind (xs.drop m))) := by
  have hmem : ∀ x ∈ xs.drop m, x ∈ (s.node i).children := by
    intro x hx
    rw [hnode]
    exact List.mem_of_mem_drop hx
  have hall := goesOn_inlineParts hpart hi
  cases kind with
  | statements =>
    refine goesOn_writeStatements fun x hx => ?_
    have hx' := hparts x (hmem x hx)
    exact writesStatements_part hx'.writable.present
      ((hpart x hx').statement (hi.statements xs hnode x (List.mem_of_mem_drop hx)))
  | records => exact goesOn_writeRecords fun x hx => hall (by rw [hnode]; rfl) hparts x (hmem x hx)
  | identifiers | targets | expressions =>
    exact goesOn_separated (goesOn_put _) fun x hx => hall (by rw [hnode]; rfl) hparts x (hmem x hx)

theorem goesOn_inline (hi : Writable s i) (hparts : ∀ c ∈ (s.node i).children, WritableTree s k c)
    (hinline : isInline (s.node i) = true) (hlist : isListNode (s.node i) = false) :
    GoesOn s InStatement (writeNode (write depth) (s.node i)) := by
  have hstatements : (s.node i).isList .statements = false := by
    cases hn : s.node i with
    | list => simp [hn, isListNode] at hlist
    | _ => rfl
  have hall := goesOn_inlineParts hpart hi hstatements hparts
  have hspell := hi.spellable
  cases hnode : s.node i with
  | list => simp [hnode, isListNode] at hlist
  | function a b scope =>
    simp only [hnode, Node.children, List.forall_mem_cons] at hall
    exact goesOn_writeFunction hall.1 hall.2.1
  | table a r => exact goesOn_table hpart hi hnode hparts
  | arrayRecord v =>
    simp only [hnode, Node.children, List.forall_mem_cons] at hall
    exact hall.1
  | tableRecord key v =>
    simp only [hnode, Node.children, List.forall_mem_cons] at hall hparts
    exact goesOn_writeTableRecord hparts.1.writable.spellable hall.1 hall.2.1
  | binary op l r =>
    simp only [hnode, Node.children, List.forall_mem_cons] at hall
    exact goesOn_writeBinary (hi.sign op l r hnode) hall.1 hall.2.1
  | unary op x =>
    simp only [hnode, Node.children, List.forall_mem_cons] at hall
    exact goesOn_writeUnary hall.1
  | identifier x => exact goesOn_writeIdentifier x
  | multres | vararg => exact goesOn_put _
  | element table key =>
    simp only [hnode, Node.children, List.forall_mem_cons] at hall hparts
    exact goesOn_writeElement hparts.1.writable.spellable (hnode ▸ hspell) hall.2.1 hall.1
  | call f as =>
    have hlists := hi.lists as (by simp [hnode, listParts])
    rw [hnode] at hall
    exact goesOn_writeCall hlists (fun t x h => (goesOn_callTable hpart hnode hparts t x h).1)
      (fun t x h => (goesOn_callTable hpart hnode hparts t x h).2) hall
  | elseIf c b =>
    simp only [hnode, Node.children, List.forall_mem_cons] at hall
    exact goesOn_writeElseIf hall.1 hall.2.1
  | constant kind v => exact goesOn_writeConstant (hnode ▸ hspell)
  | primitive kind =>
    cases kind with
    | _ => exact goesOn_put _
  | _ =>
    rw [hnode] at hinline
    cases hinline

theorem writesStatement_node (hi : Writable s i) (hparts : ∀ c ∈ (s.node i).children, WritableTree s k c)
    (hstatement : (s.node i).isStatement = true) :
    WritesStatement s (writeNode (write depth) (s.node i)) := by
  have hlist : (s.node i).isList .statements = false := by
    cases hn : s.node i with
    | list => simp [hn, Node.isStatement] at hstatement
    | _ => rfl
  have hall := goesOn_inlineParts hpart hi hlist hparts
  cases hnode : s.node i with
  | assignment kind es ds =>
    have hes := hi.lists es (by simp [hnode, listParts])
    have hds := hi.lists ds (by simp [hnode, listParts])
    have htes : WritableTree s k es := hparts es (by simp [hnode, Node.children])
    have htds : WritableTree s k ds := hparts ds (by simp [hnode, Node.children])
    rw [hnode] at hall
    refine writesStatement_writeAssignment hes hds hall fun e he d hd a b c hfunction hsimple => ?_
    have he' := htes.child ((items_sublist_children _).subset he)
    have hd' := htds.below ((items_sublist_children _).subset hd)
    exact writesDefinition_part he'.writable.present ((hpart e he').definition a b c d hfunction hsimple hd')
  | ifElse c t xs e =>
    have he := hi.lists e (by simp [hnode, listParts])
    rw [hnode] at hall
    exact writesStatement_writeIf he hall
  | call f as =>
    have hlists := hi.lists as (by simp [hnode, listParts])
    rw [hnode] at hall
    exact writesStatement_writeCall hlists (fun t x h => (goesOn_callTable hpart hnode hparts t x h).1)
      (fun t x h => (goesOn_callTable hpart hnode hparts t x h).2) hall
  | ret vs =>
    rw [hnode] at hall
    exact writesStatement_writeReturn hall
  | breakLoop => exact writesStatement_start ((goesOn_put _).closing <| closes_endStatement)
  | whileLoop c b =>
    rw [hnode] at hall
    exact writesStatement_writeWhile hall
  | repeatLoop c b =>
    rw [hnode] at hall
    exact writesStatement_writeRepeat hall
  | numericFor v es b =>
    rw [hnode] at hall
    exact writesStatement_writeFor hall (by simp [Node.children]) (by simp [Node.children])
      (by simp [Node.children])
  | iteratorFor es vs b =>
    rw [hnode] at hall
    exact writesStatement_writeFor hall (by simp [Node.children]) (by simp [Node.children])
      (by simp [Node.children])
  | _ =>
    rw [hnode] at hstatement
    cases hstatement

end

/-- What is written of a tree, to the depth that the tree has or deeper. -/
theorem writes_of_tree (h : WritableTree s k i) (hdepth : k ≤ depth) : Writes s k i (write depth i) := by
  induction k generalizing i depth with
  | zero => exact h.elim
  | succ k ih =>
    obtain ⟨depth, rfl⟩ : ∃ d, depth = d + 1 := ⟨depth - 1, by omega⟩
    have hpart : ∀ x, WritableTree s k x → Writes s k x (write depth x) := fun x hx => ih hx (by omega)
    obtain ⟨hi, hparts⟩ := h
    refine ⟨fun hinline => ?_, fun hstatement => ?_, fun a b c d hnode hsimple hd => ?_⟩
    · refine (looks_node i).goes.bind fun n hn => ?_
      cases hlist : isListNode (s.node i) with
      | false => exact hn.other hlist ▸ goesOn_inline hpart hi hparts hinline hlist
      | true =>
        cases hnode : s.node i with
        | list kind xs =>
          obtain ⟨m, rfl⟩ := hn.list hnode
          exact goesOn_list hpart hi hnode hparts m
        | _ => simp [hnode, isListNode] at hlist
    · refine (looks_node i).writes fun n hn => ?_
      have hlist : isListNode (s.node i) = false := by
        cases hnode : s.node i with
        | list => simp [hnode, Node.isStatement] at hstatement
        | _ => rfl
      exact hn.other hlist ▸ writesStatement_node hpart hi hparts hstatement
    · refine (looks_node i).writes fun n hn => ?_
      obtain rfl : n = .function a b c := (hn.other (by rw [hnode]; rfl)).trans hnode
      have hall := goesOn_inlineParts hpart hi (by rw [hnode]; rfl) hparts
      simp only [hnode, Node.children, List.forall_mem_cons] at hall
      refine writesDefinition_writeFunction (goesOn_part hd.writable.present ?_) hall.1 hall.2.1
      exact goesOn_name hd (by omega) hsimple

/-! ## Valid trees -/

/-- A test that only nodes pass that stand inside a statement. -/
def OnlyInline (f : Node → Bool) : Prop := ∀ m, f m = true → isInline m = true

@[simp] theorem onlyInline_isExpression : OnlyInline Node.isExpression := by
  intro m h
  cases m <;> first | rfl | cases h

@[simp] theorem onlyInline_isVariable : OnlyInline Node.isVariable := by
  intro m h
  cases m <;> first | rfl | cases h

@[simp] theorem onlyInline_isList (kind : ListKind) : OnlyInline (Node.isList kind) := by
  intro m h
  cases m <;> first | rfl | cases h

@[simp] theorem onlyInline_isElseIfNode : OnlyInline isElseIfNode := by
  intro m h
  cases m <;> first | rfl | cases h

@[simp] theorem onlyInline_isRecordNode : OnlyInline isRecordNode := by
  intro m h
  cases m <;> first | rfl | cases h

@[simp] theorem onlyInline_isParameter : OnlyInline fun n => isIdentifierNode n || n == .vararg := by
  intro m h
  cases m <;> first | rfl | simp [isIdentifierNode] at h

theorem onlyInline_special (hn : isStructured n = true) :
    ∀ p ∈ (ruleFor false n).special, OnlyInline p.2 := by
  cases n with
  | absent | block | jump | test | iterate | count | stop => cases hn
  | list kind xs => cases kind <;> simp [ruleFor]
  | _ => simp [ruleFor]

theorem onlyInline_general (hn : isStructured n = true) (hlist : n.isList .statements = false)
    (hf : n.ctorIdx ≠ 1) : ∀ f, (ruleFor false n).general = some f → OnlyInline f := by
  cases n with
  | absent | block | jump | test | iterate | count | stop => cases hn
  | function => exact absurd rfl hf
  | list kind xs =>
    cases kind with
    | statements => cases hlist
    | _ => simp [ruleFor]
  | _ => simp [ruleFor]

theorem isInline_of_allows (hn : isStructured n = true) (hlist : n.isList .statements = false)
    (hc : c ∈ n.children) (h : (ruleFor false n).allows c m = true) : isInline m = true := by
  obtain ⟨p, hp, -, hm⟩ | ⟨hne, f, hf, hm⟩ := allows_cases h
  · exact onlyInline_special hn p hp m hm
  · refine onlyInline_general hn hlist ?_ f hf m hm
    -- Both parts of a function have tests of their own.
    intro hfunction
    cases n with
    | function a b scope =>
      simp only [Node.children, List.mem_cons, List.not_mem_nil, or_false] at hc
      simp only [ruleFor, List.forall_mem_cons] at hne
      exact hc.elim (fun h => hne.1 h.symm) fun h => hne.2.1 h.symm
    | _ => cases hfunction

theorem isStructured_of_isInline (h : isInline n = true) : isStructured n = true := by
  unfold isInline at h
  split at h
  · rfl
  · exact (Bool.and_eq_true_iff.mp h).1

theorem isListNode_of_allows (hc : c ∈ listParts n) (h : (ruleFor false n).allows c m = true) :
    isListNode m = true := by
  have hlist : ∀ kind, m.isList kind = true → isListNode m = true := by
    intro kind hm
    cases m <;> first | rfl | cases hm
  cases n with
  | assignment kind es ds =>
    obtain ⟨p, hp, -, hm⟩ | ⟨-, f, hf, -⟩ := allows_cases h
    · simp only [ruleFor, List.mem_cons, List.not_mem_nil, or_false] at hp
      obtain rfl | rfl := hp
      · exact hlist _ hm
      · exact hlist _ hm
    · cases hf
  | call f as =>
    obtain rfl : c = as := List.mem_singleton.mp hc
    exact hlist .expressions (allows_second.symm.trans h)
  | ifElse cond t xs e =>
    obtain rfl : c = e := List.mem_singleton.mp hc
    simp only [ruleFor, PartRule.allows, List.reverse_cons, List.reverse_nil, List.nil_append,
      List.cons_append,
      List.find?_cons, beq_self_eq_true] at h
    exact hlist .statements h
  | _ => cases hc

theorem binarySign_of_rule {op : BinaryOp} {l : NodeId} {rule : PartRule}
    (h : partRule s false (.binary op l r) = .ok rule) : binarySign op ≠ none := by
  obtain ⟨_, hop, -⟩ := bind_eq_ok h
  cases op with
  | other => cases hop
  | _ => simp [binarySign]

/-- The nodes of a valid tree can be written, and the tree is no deeper than the check goes. -/
theorem writableTree_of_check {rule : Option PartRule} (hzero : s.node .absent = .absent)
    (h : checkPart s false k rule i = .ok ()) (hs : isStructured (s.node i) = true)
    (hspell : ∀ j, InTree s i j → isSpellable s (s.node j) = true) : WritableTree s k i := by
  induction k generalizing i rule with
  | zero => cases h
  | succ k ih =>
    obtain ⟨-, hpresent, r, hr, hparts⟩ := checkPart_ok h
    obtain rfl := partRule_eq_ok hr
    have hallows : ∀ c ∈ (s.node i).children, (ruleFor false (s.node i)).allows c (s.node c) = true := by
      intro c hc
      cases k with
      | zero => cases hparts c hc
      | succ k => exact (checkPart_ok (hparts c hc)).1 _ rfl
    have hstatements : ∀ xs, s.node i = .list .statements xs → ∀ c ∈ xs, (s.node c).isStatement = true := by
      intro xs hi c hc
      rw [hi] at hallows
      exact hallows c hc
    have hinline : (s.node i).isList .statements = false →
        ∀ c ∈ (s.node i).children, isInline (s.node c) = true :=
      fun hlist c hc => isInline_of_allows hs hlist hc (hallows c hc)
    refine ⟨⟨?_, hs, hspell i .root, ?_, hstatements, hinline, ?_, ?_⟩, fun c hc => ?_⟩
    · rintro rfl
      exact hpresent hzero
    · intro op l r hi
      rw [hi] at hr
      exact binarySign_of_rule hr
    · intro c hc
      refine isListNode_of_allows hc (hallows c ?_)
      revert hc
      cases s.node i <;> simp +contextual [listParts, Node.children]
    · intro a r hi c hc
      rw [hi] at hallows
      exact hallows c hc
    · refine ih (hparts c hc) ?_ fun j hj => hspell j ((InTree.root.child hc).trans hj)
      cases hlist : (s.node i).isList .statements with
      | false => exact isStructured_of_isInline (hinline hlist c hc)
      | true =>
        obtain ⟨xs, hi⟩ := isList_eq hlist
        rw [hi] at hc
        exact onlyStructured_isStatement _ (hstatements xs hi c hc)

/-! ## The text of a valid program -/

theorem succeeds_statements (h : WritableTree s k ss) (hdepth : k ≤ depth)
    (hss : s.node ss = .list .statements xs) :
    Succeeds (part (write depth) ss) ⟨s, {}⟩ fun _ w => Nested false w.own.commands.toList := by
  obtain ⟨k, rfl⟩ : ∃ n, k = n + 1 := by
    cases k with
    | zero => exact h.elim
    | succ k => exact ⟨k, rfl⟩
  obtain ⟨depth, rfl⟩ : ∃ d, depth = d + 1 := ⟨depth - 1, by omega⟩
  refine succeeds_part h.1.present (fun _ _ hv => hv) .nil ?_
  have hnode : Returns (node ss) (withDone ⟨s, {}⟩ []) (.list .statements xs) (withDone ⟨s, {}⟩ []) := by
    rw [← hss]
    rfl
  have hstatements : ∀ x ∈ xs, WritesStatements s (part (write depth) x) := by
    intro x hx
    have hx' := h.2 x (by rw [hss]; exact hx)
    exact writesStatements_part hx'.writable.present
      ((writes_of_tree hx' (by omega)).statement (h.1.statements xs hss x hx))
  refine Succeeds.bind
    (hnode.succeeds ((succeeds_writeStatements hstatements (.refl s) (by simp [withDone])).mono ?_))
  rintro _ w ⟨-, -, cs, hnested, hcs⟩
  rw [hcs]
  exact hnested

/-- A valid program is written without a fault, and the commands for it are well nested. -/
theorem text_of_valid {root as ss : NodeId} {c : Scope} (hzero : s.node .absent = .absent)
    (hroot : s.node root = .function as ss c) (hvalid : s.validate false root = .ok ())
    (hspell : ∀ i, InTree s root i → isSpellable s (s.node i) = true) :
    ∃ cs t w, Returns (commands root) ⟨s, ()⟩ cs w ∧ Returns (text root) ⟨s, ()⟩ (t, none) w ∧
      WellNested cs := by
  have htree : WritableTree s s.depth root :=
    writableTree_of_check hzero hvalid (by rw [hroot]; rfl) hspell
  have hchild : ss ∈ (s.node root).children := by simp [hroot, Node.children]
  obtain ⟨xs, hxs⟩ : ∃ xs, s.node ss = .list .statements xs := by
    have hallows := (InTree.root.allows hvalid).2 ss hchild
    rw [hroot] at hallows
    exact isList_eq (allows_second.symm.trans hallows)
  obtain ⟨_, w, hwrite, hnested⟩ := succeeds_statements (htree.below hchild) (Nat.sub_le ..) hxs
  have hcommands : Returns (commands root) ⟨s, ()⟩ w.own.commands.toList ⟨w.store, ()⟩ := by
    unfold Returns
    rw [run_commands hroot, show part (write s.depth) ss ⟨s, {}⟩ = .ok _ w from hwrite]
  obtain ⟨t, ht⟩ := hnested.hasText
  refine ⟨_, t, _, hcommands, hcommands.ofBind ?_, hnested.wellNested⟩
  rw [ht]
  rfl

/-- A global function whose body calls a method with a constructor and has a choice. -/
def definedMethodCall : Store := numbered [
  .identifier { kind := .builtin, name := some "_env" },
  .constant .text (.text "f"),
  .element ⟨1⟩ ⟨2⟩,
  .list .targets [⟨3⟩],
  .identifier { kind := .named, slot := 0, name := some "a" },
  .list .identifiers [⟨5⟩],
  .constant .text (.text "m"),
  .element ⟨5⟩ ⟨7⟩,
  .primitive .nil,
  .arrayRecord ⟨9⟩,
  .primitive .true,
  .arrayRecord ⟨11⟩,
  .list .records [⟨10⟩, ⟨12⟩],
  .constant .text (.text "k"),
  .tableRecord ⟨14⟩ ⟨5⟩,
  .list .records [⟨15⟩],
  .table ⟨13⟩ ⟨16⟩,
  .list .expressions [⟨5⟩, ⟨17⟩],
  .call ⟨8⟩ ⟨18⟩,
  .list .expressions [⟨5⟩],
  .ret ⟨20⟩,
  .list .statements [⟨21⟩],
  .list .expressions [],
  .ret ⟨23⟩,
  .list .statements [⟨24⟩],
  .ifElse ⟨5⟩ ⟨22⟩ [] ⟨25⟩,
  .list .statements [⟨19⟩, ⟨26⟩],
  .function ⟨6⟩ ⟨27⟩ {},
  .list .expressions [⟨28⟩],
  .assignment .normal ⟨29⟩ ⟨4⟩,
  .ret ⟨23⟩,
  .list .statements [⟨30⟩, ⟨31⟩],
  .list .identifiers [],
  .function ⟨33⟩ ⟨32⟩ {}]

theorem text_of_valid_definedMethodCall :
    definedMethodCall.validate false ⟨34⟩ = .ok () ∧
      (∀ i, InTree definedMethodCall ⟨34⟩ i →
        isSpellable definedMethodCall (definedMethodCall.node i) = true) ∧
      (∃ cs t w, Returns (commands ⟨34⟩) ⟨definedMethodCall, ()⟩ cs w ∧
        Returns (text ⟨34⟩) ⟨definedMethodCall, ()⟩ (t, none) w ∧ WellNested cs) ∧
      ((text ⟨34⟩).run' definedMethodCall).1 = .ok
        ("function f(a)\n\ta:m(\x7b\n\t\ttrue,\n\t\tk = a\n\t\x7d)\n\n\tif a then\n" ++
          "\t\treturn a\n\telse\n\t\treturn \n\tend\nend\n\nreturn \n",
          none) := by
  have hvalid : definedMethodCall.validate false ⟨34⟩ = .ok () := by decide +kernel
  have hspell : ∀ i, InTree definedMethodCall ⟨34⟩ i →
      isSpellable definedMethodCall (definedMethodCall.node i) = true :=
    fun i _ => forall_node (P := fun n => isSpellable definedMethodCall n = true) rfl (by decide +kernel) i
  exact ⟨hvalid, hspell, text_of_valid rfl rfl hvalid hspell, by decide +kernel⟩

/-- A list of statements, which is a valid tree but no program. -/
def statementsOnly : Store := numbered [
  .list .expressions [],
  .ret ⟨1⟩,
  .list .statements [⟨2⟩]]

theorem text_statementsOnly :
    statementsOnly.validate false ⟨3⟩ = .ok () ∧
      (∀ i, InTree statementsOnly ⟨3⟩ i → isSpellable statementsOnly (statementsOnly.node i) = true) ∧
      ((text ⟨3⟩).run' statementsOnly).1 = .error (.broken "the root of a program is a function") := by
  refine ⟨by decide +kernel, fun i _ => ?_, by decide +kernel⟩
  exact forall_node (P := fun n => isSpellable statementsOnly n = true) rfl (by decide +kernel) i

end LuaLift.Proofs
