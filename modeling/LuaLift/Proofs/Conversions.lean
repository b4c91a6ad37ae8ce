import LuaLift.CommandLine.Run
import LuaLift.Proofs.Bytewise
import LuaLift.Proofs.Paths

/-! # Converting one file of a folder

A session keeps the tree of the last function that was built. The text that is written for a dump
is a matter of its bytes alone, unless the dump is refused: then it is the text of the tree that is
kept. Converting a file changes nothing but the file with its text and the folders above it. -/
namespace LuaLift.Proofs
open Bytecode Dump CommandLine

variable {numbering : Numbering} {origin origin' : String} {bytes : Bytes} {α β : Type}

/-! ## Sessions -/

theorem readParts_relabeled (numbering : Numbering) (origin origin' : String) :
    readParts numbering origin' =
      (do return (← readParts numbering origin).map (relabeled origin')) := by
  unfold readParts
  rw [readHeader_relabeled origin origin']
  simp only [bind_assoc, pure_bind]
  refine bind_congr fun found => ?_
  cases found with
  | none => simp
  | some header =>
    simp only [Option.map_some, bind_assoc]
    refine bind_congr fun _ => bind_congr fun s => bind_congr fun accepted => ?_
    cases accepted <;> simp

theorem read_relabeled (numbering : Numbering) (origin origin' : String) (bytes : Bytes) :
    Dump.read numbering origin' bytes =
      ⟨(Dump.read numbering origin bytes).result.map
          (Option.map fun found => (relabeled origin' found.1, found.2)),
        (Dump.read numbering origin bytes).log⟩ := by
  have hparts : (readParts numbering origin').run (.ofBytes bytes) =
      match (readParts numbering origin).run (.ofBytes bytes) with
      | .ok found s => .ok (found.map (relabeled origin')) s
      | .error e s => .error e s := by
    rw [readParts_relabeled numbering origin origin']
    change EStateM.bind (readParts numbering origin) _ _ = _
    unfold EStateM.bind EStateM.run
    cases readParts numbering origin (.ofBytes bytes) <;> rfl
  unfold Dump.read
  rw [hparts]
  cases (readParts numbering origin).run (.ofBytes bytes) with
  | ok found s =>
    cases found with
    | none => rfl
    | some header =>
      dsimp only [Option.map_some]
      unfold finish
      split
      · rfl
      · split
        · rfl
        · rfl
  | error e s => cases e <;> rfl

theorem load_of_origin (s : Session) (numbering : Numbering) (origin origin' : String)
    (bytes : Bytes) : s.load numbering origin' bytes = s.load numbering origin bytes := by
  unfold Session.load
  rw [read_relabeled numbering origin origin']
  dsimp only
  rcases (Dump.read numbering origin bytes).result with e | _ | found
  · rfl
  · rfl
  · rfl

/-- The text that is written for a dump, if it comes to that. -/
def textFor (s : Session) (numbering : Numbering) (origin : String) (bytes : Bytes) : Option String :=
  match s.load numbering origin bytes with
  | (.ok _, _, s') => some s'.write.1
  | (.error _, _, _) => none

/-- What is written for a dump that is not refused does not depend on those before it. -/
theorem textFor_of_session (h : (Dump.read numbering origin bytes).result ≠ .ok none)
    (s s' : Session) : textFor s numbering origin bytes = textFor s' numbering origin bytes := by
  unfold textFor Session.load
  dsimp only
  rcases hresult : (Dump.read numbering origin bytes).result with e | _ | found
  · rfl
  · exact absurd hresult h
  · dsimp only
    unfold Session.decompile
    rcases runSteps found.2 [.build] .absent {} with ⟨_ | root, store⟩
    · rfl
    · rfl

theorem textFor_of_error {s : Session} {e : Fault} (h : (s.load numbering origin bytes).1 = .error e) :
    textFor s numbering origin bytes = none := by
  unfold textFor
  rcases hload : s.load numbering origin bytes with ⟨_ | _, notes, s'⟩
  · rfl
  · rw [hload] at h
    cases h

/-- For a dump that is refused, the tree that the session keeps is written. -/
theorem textFor_of_refused (h : (Dump.read numbering origin bytes).result = .ok none) (s : Session) :
    textFor s numbering origin bytes = some s.write.1 := by
  unfold textFor Session.load
  dsimp only
  rw [h]

/-! ## What a run changes -/

/-- What a run has done when it ends, also if it fails. -/
def progressAfter (r : Run α) (p : Progress) : Progress :=
  match r p with
  | .ok _ q => q
  | .error _ q => q

variable {inside : Path} {p : Progress} {r : Run α} {text : String}

theorem progressAfter_ok {q : Progress} {a : α} (h : r p = .ok a q) : progressAfter r p = q := by
  rw [progressAfter, h]

theorem progressAfter_bind (r : Run α) (f : α → Run β) (p : Progress) :
    progressAfter (r >>= f) p =
      match r p with
      | .ok a q => progressAfter (f a) q
      | .error _ q => q := by
  change (match EStateM.bind r f p with | .ok _ q => q | .error _ q => q : Progress) = _
  unfold EStateM.bind
  cases r p <;> rfl

theorem progressAfter_tryCatch (r : Run α) (handler : Fault → Run α) (p : Progress) :
    progressAfter (tryCatch r handler) p =
      match r p with
      | .ok _ q => q
      | .error e q => progressAfter (handler e) q := by
  change (match EStateM.tryCatch r handler p with | .ok _ q => q | .error _ q => q : Progress) = _
  unfold EStateM.tryCatch
  cases r p <;> rfl

theorem files_bind_of_same {f : α → Run β} (h : ∀ a q, (progressAfter (f a) q).files = q.files) :
    (progressAfter (r >>= f) p).files = (progressAfter r p).files := by
  rw [progressAfter_bind, progressAfter]
  cases r p with
  | ok a q => exact h a q
  | error e q => rfl

theorem files_tryCatch_of_same {handler : Fault → Run α}
    (h : ∀ e q, (progressAfter (handler e) q).files = q.files) :
    (progressAfter (tryCatch r handler) p).files = (progressAfter r p).files := by
  rw [progressAfter_tryCatch, progressAfter]
  cases r p with
  | ok a q => rfl
  | error e q => exact h e q

/-- Between `f` and `g` no file has changed but the one at `target`, and no folder is new but
those above it. -/
structure ChangedAt (target : Path) (f g : Files) : Prop where
  contents : ∀ path, path ≠ target → g.read? path = f.read? path
  folders : ∀ path, g.isFolder path = true → f.isFolder path = true ∨ path ∈ target.above

/-- A run changes no other file. -/
def ChangesAt (target : Path) (r : Run α) : Prop :=
  ∀ p, ChangedAt target p.files (progressAfter r p).files

section
variable {target : Path} {f g h : Files}

theorem ChangedAt.refl (target : Path) (f : Files) : ChangedAt target f f :=
  ⟨fun _ _ => rfl, fun _ => .inl⟩

theorem ChangedAt.trans (hf : ChangedAt target f g) (hg : ChangedAt target g h) :
    ChangedAt target f h where
  contents path hne := (hg.contents path hne).trans (hf.contents path hne)
  folders path hfolder := (hg.folders path hfolder).elim (hf.folders path) .inr

theorem changesAt_of_same (h : ∀ p, (progressAfter r p).files = p.files) : ChangesAt target r := by
  intro p
  rw [h p]
  exact .refl target p.files

theorem ChangesAt.bind {f : α → Run β} (h : ChangesAt target r) (h' : ∀ a, ChangesAt target (f a)) :
    ChangesAt target (r >>= f) := by
  intro p
  have hfirst := h p
  rw [progressAfter_bind]
  unfold progressAfter at hfirst
  cases hr : r p with
  | ok a q =>
    rw [hr] at hfirst
    exact hfirst.trans (h' a q)
  | error e q =>
    rw [hr] at hfirst
    exact hfirst

end

/-! ## One file -/

section
variable {o : Options} {p : Progress} {file : String} {target : Path}

theorem decompile_eq (h : p.files.read? (Path.ofText file) = some bytes) :
    Run.decompile numbering file p =
      match p.session.load numbering file bytes with
      | (.ok _, log, s) => .ok () { p with session := s, log := p.log ++ log }
      | (.error e, log, s) => .error e { p with session := s, log := p.log ++ log } := by
  rw [Run.decompile, run_get, h]
  dsimp only
  refine (run_bind rfl).trans ?_
  rcases p.session.load numbering file bytes with ⟨_ | _, log, s⟩
  · rfl
  · rfl

theorem changesAt_decompile (target : Path) (numbering : Numbering) (file : String) :
    ChangesAt target (Run.decompile numbering file) := by
  refine changesAt_of_same fun p => ?_
  unfold progressAfter
  cases hread : p.files.read? (Path.ofText file) with
  | none =>
    rw [Run.decompile, run_get, hread]
    rfl
  | some bytes =>
    rw [decompile_eq hread]
    rcases p.session.load numbering file bytes with ⟨_ | _, log, s⟩
    · rfl
    · rfl

/-- There is a place for a file: no file where its folders must be, and no folder in its place. -/
structure Room (f : Files) (target : Path) : Prop where
  noFile : ∀ path ∈ target.above, f.read? path = none
  noFolder : f.isFolder target = false

instance (f : Files) (target : Path) : Decidable (Room f target) :=
  decidable_of_iff ((∀ path ∈ target.above, f.read? path = none) ∧ f.isFolder target = false)
    ⟨fun h => ⟨h.1, h.2⟩, fun h => ⟨h.noFile, h.noFolder⟩⟩

/-- The text of a path is that of `target`, and the text up to its last component that of the
folder of `target`. -/
structure Names (text : String) (target : Path) : Prop where
  path : Path.ofText text = target
  parent : parentText text ≠ ""
  folder : Path.ofText (parentText text) = target.dropLast
  notEmpty : target ≠ []

theorem makeFolder_cases (folder : String) (p : Progress) :
    Run.makeFolder folder p = .error .noFile p ∨
      Run.makeFolder folder p = .ok () { p with files := p.files.addFolder (Path.ofText folder) } := by
  rw [Run.makeFolder, run_get]
  split
  · exact .inl rfl
  · exact .inr rfl

theorem changesAt_makeFolder (h : Names text target) :
    ChangesAt target (Run.makeFolder (parentText text)) := by
  intro p
  unfold progressAfter
  cases makeFolder_cases (parentText text) p with
  | inl hblocked =>
    rw [hblocked]
    exact .refl target p.files
  | inr hmade =>
    rw [hmade, h.folder]
    refine ⟨fun _ _ => rfl, fun path hfolder => ?_⟩
    exact (isFolder_addFolder.mp hfolder).imp id (mem_above_iff_dropLast h.notEmpty).mpr

theorem makeFolder_eq (h : Names text target) (hroom : Room p.files target) :
    Run.makeFolder (parentText text) p =
      .ok () { p with files := p.files.addFolder target.dropLast } := by
  have hfree : (target.dropLast :: Path.above target.dropLast).any (fun q => (p.files.read? q).isSome) =
      false := by
    rw [List.any_eq_false]
    intro q hq
    rw [hroom.noFile q ((mem_above_iff_dropLast h.notEmpty).mpr (List.mem_cons.mp hq))]
    simp
  rw [Run.makeFolder, run_get, h.folder, if_neg (by simp [h.parent, hfree])]
  rfl

/-- The bytes of a text in a file. -/
def encoded (text : String) : Bytes := text.toUTF8.toList

theorem progressAfter_writeFile (h : Path.ofText text = target) (htarget : target ≠ [])
    (hfile : p.files.isFolder target = false) (hfolder : p.files.isFolder target.dropLast = true) :
    (progressAfter (Run.writeFile text) p).files =
      p.files.write target (encoded p.session.write.1) := by
  have htake : Run.takeText p =
      .ok (p.session.write.1, p.session.write.2.1) { p with session := p.session.write.2.2 } := rfl
  unfold progressAfter
  rw [Run.writeFile, run_get, h, if_neg (by simp [htarget, hfile, hfolder])]
  dsimp only
  rw [run_bind htake]
  cases p.session.write.2.1 with
  | none => rfl
  | some e => rfl

theorem changesAt_writeFile (h : Path.ofText text = target) : ChangesAt target (Run.writeFile text) := by
  intro p
  by_cases hplace : target ≠ [] ∧ p.files.isFolder target = false ∧
      p.files.isFolder target.dropLast = true
  · obtain ⟨htarget, hfile, hfolder⟩ := hplace
    rw [progressAfter_writeFile h htarget hfile hfolder]
    exact ⟨fun path hne => read?_write_of_ne _ hne, fun path => .inl⟩
  · have hrefused : Run.writeFile text p = .error .noFile p := by
      rw [Run.writeFile, run_get, h, if_pos (by simpa [imp_iff_not_or, or_assoc] using hplace)]
      rfl
    unfold progressAfter
    rw [hrefused]
    exact .refl target p.files

theorem files_report (o : Options) (numbering : Numbering) (file : String) (inside : Path)
    (p : Progress) : ∃ log, (progressAfter (Run.report o numbering file inside) p).files =
      (progressAfter (Run.convert o numbering file inside) { p with log := log }).files := by
  refine ⟨p.log ++ ["LJD         : INFO     " ++ file], ?_⟩
  change (progressAfter (tryCatch (Run.convert o numbering file inside >>= fun _ => Run.info "Success")
    fun _ => Run.info "Exception") _).files = _
  rw [files_tryCatch_of_same fun _ _ => rfl, files_bind_of_same fun _ _ => rfl]

/-- A script changes nothing but its own target. -/
theorem changesAt_report (numbering : Numbering) (file : String)
    (h : Names (joinText o.outputFolder ("/".intercalate inside)) target) :
    ChangesAt target (Run.report o numbering file inside) := by
  have hconvert : ChangesAt target (Run.convert o numbering file inside) :=
    (changesAt_decompile target numbering file).bind fun _ =>
      (changesAt_makeFolder h).bind fun _ => changesAt_writeFile h.path
  intro p
  obtain ⟨log, hreport⟩ := files_report o numbering file inside p
  rw [hreport]
  exact hconvert { p with log := log }

section
variable (h : Names (joinText o.outputFolder ("/".intercalate inside)) target)
  (hinput : p.files.read? (Path.ofText file) = some bytes) (hroom : Room p.files target)
include h hinput hroom

theorem files_convert :
    (progressAfter (Run.convert o numbering file inside) p).files =
      match textFor p.session numbering file bytes with
      | some text => (p.files.addFolder target.dropLast).write target (encoded text)
      | none => p.files := by
  rw [Run.convert, progressAfter_bind, decompile_eq hinput]
  unfold textFor
  rcases p.session.load numbering file bytes with ⟨_ | _, notes, s⟩
  · rfl
  · have hmake := makeFolder_eq (p := { p with session := s, log := p.log ++ notes }) h hroom
    dsimp only
    rw [progressAfter_bind, hmake]
    rw [progressAfter_writeFile h.path h.notEmpty]
    -- the folders that were made stand above the file, not in its place
    · rw [Bool.eq_false_iff]
      intro hfolder
      rcases isFolder_addFolder.mp hfolder with hfolder | habove
      · exact Bool.eq_false_iff.mp hroom.noFolder hfolder
      · exact (mem_above.mp ((mem_above_iff_dropLast h.notEmpty).mpr habove)).2 rfl
    · exact isFolder_addFolder.mpr (.inr (.inl rfl))

theorem read?_report :
    (progressAfter (Run.report o numbering file inside) p).files.read? target =
      ((textFor p.session numbering file bytes).map encoded).or (p.files.read? target) := by
  obtain ⟨log, hreport⟩ := files_report o numbering file inside p
  rw [hreport, files_convert (p := { p with log := log }) h hinput hroom]
  cases textFor p.session numbering file bytes with
  | none => rfl
  | some text => exact read?_write_self _

end

theorem report_ok (o : Options) (numbering : Numbering) (file : String) (inside : Path)
    (p : Progress) : ∃ q, Run.report o numbering file inside p = .ok () q := by
  have hcaught : ∀ (r : Run Unit) (q : Progress),
      ∃ q', tryCatch r (fun _ => Run.info "Exception") q = .ok () q' := by
    intro r q
    change ∃ q', EStateM.tryCatch r _ q = _
    unfold EStateM.tryCatch
    cases r q with
    | ok _ q' => exact ⟨q', rfl⟩
    | error e q' => exact ⟨_, rfl⟩
  obtain ⟨q, hq⟩ := hcaught (Run.convert o numbering file inside >>= fun _ => Run.info "Success") _
  exact ⟨q, (run_bind rfl).trans hq⟩

end

end LuaLift.Proofs
