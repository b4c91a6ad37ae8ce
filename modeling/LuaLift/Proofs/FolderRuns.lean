import LuaLift.Proofs.Conversions

/-! # Converting the files of a folder

A run over a folder converts one script after the other in one session. What is written for a
script whose dump is not refused is what a run on this script alone writes, whatever was converted
before it. A script whose dump is refused gets the text of a script before it. -/
namespace LuaLift.Proofs
open Bytecode Dump CommandLine

variable {numbering : Numbering} {bytes : Bytes}

/-! ## One file after the other -/

/-- A file that a run over a folder converts, and where it stands in that folder. -/
structure Script where
  file : String
  inside : Path

/-- Where the text of a script goes. -/
def Script.target (o : Options) (v : Script) : Path := Path.ofText o.outputFolder ++ v.inside

/-- A script stands in the folder under names. -/
structure Script.Named (v : Script) : Prop where
  notEmpty : v.inside ≠ []
  names : ∀ name ∈ v.inside, IsName name

instance (v : Script) : Decidable v.Named :=
  decidable_of_iff (v.inside ≠ [] ∧ ∀ name ∈ v.inside, IsName name)
    ⟨fun h => ⟨h.1, h.2⟩, fun h => ⟨h.notEmpty, h.names⟩⟩

/-- Converts scripts in order. -/
def convertAll (o : Options) (numbering : Numbering) (scripts : List Script) : Run Unit :=
  scripts.forM fun v => Run.report o numbering v.file v.inside

section
variable {o : Options} {p : Progress} {scripts : List Script} {v : Script}

theorem Script.Named.target (h : v.Named) (ho : o.outputFolder ≠ "") :
    Names (joinText o.outputFolder ("/".intercalate v.inside)) (v.target o) where
  path := ofText_joinText ho h.names h.notEmpty
  parent := (parentText_joinText ho h.names h.notEmpty).1
  folder := (parentText_joinText ho h.names h.notEmpty).2
  notEmpty := List.append_ne_nil_of_right_ne_nil _ h.notEmpty

section
variable (o : Options) (numbering : Numbering)

theorem convertAll_append (before after : List Script) : convertAll o numbering (before ++ after) =
    convertAll o numbering before >>= fun _ => convertAll o numbering after := by
  exact List.forM_append

theorem convertAll_ok (scripts : List Script) (p : Progress) :
    ∃ q, convertAll o numbering scripts p = .ok () q := by
  induction scripts generalizing p with
  | nil => exact ⟨p, rfl⟩
  | cons v scripts ih =>
    obtain ⟨m, hm⟩ := report_ok o numbering v.file v.inside p
    obtain ⟨q, hq⟩ := ih m
    exact ⟨q, (run_bind hm).trans hq⟩

theorem progressAfter_convertAll_append (before after : List Script) (p : Progress) :
    progressAfter (convertAll o numbering (before ++ after)) p =
      progressAfter (convertAll o numbering after) (progressAfter (convertAll o numbering before) p) := by
  obtain ⟨q, hq⟩ := convertAll_ok o numbering before p
  rw [convertAll_append, progressAfter_bind, progressAfter_ok hq, hq]

theorem progressAfter_convertAll_cons (v : Script) (scripts : List Script) (p : Progress) :
    progressAfter (convertAll o numbering (v :: scripts)) p =
      progressAfter (convertAll o numbering scripts)
        (progressAfter (Run.report o numbering v.file v.inside) p) := by
  obtain ⟨q, hq⟩ := report_ok o numbering v.file v.inside p
  change progressAfter (Run.report o numbering v.file v.inside >>=
    fun _ => convertAll o numbering scripts) p = _
  rw [progressAfter_bind, progressAfter_ok hq, hq]

end

theorem convertAll_keeps (ho : o.outputFolder ≠ "") (hnamed : ∀ w ∈ scripts, w.Named)
    {P : Files → Prop} (hstep : ∀ w ∈ scripts, ∀ f g, ChangedAt (w.target o) f g → P f → P g)
    (h : P p.files) : P (progressAfter (convertAll o numbering scripts) p).files := by
  induction scripts generalizing p with
  | nil => exact h
  | cons w scripts ih =>
    have hfirst := changesAt_report numbering w.file ((hnamed w List.mem_cons_self).target ho) p
    rw [progressAfter_convertAll_cons]
    apply ih
    · exact fun x hx => hnamed x (List.mem_cons_of_mem _ hx)
    · exact fun x hx => hstep x (List.mem_cons_of_mem _ hx)
    · exact hstep w List.mem_cons_self _ _ hfirst h

theorem read?_convertAll (ho : o.outputFolder ≠ "") (hnamed : ∀ w ∈ scripts, w.Named) {path : Path}
    (hothers : ∀ w ∈ scripts, w.target o ≠ path) :
    (progressAfter (convertAll o numbering scripts) p).files.read? path = p.files.read? path := by
  refine convertAll_keeps (P := fun f => f.read? path = p.files.read? path) ho hnamed ?_ rfl
  intro w hw f g hchanged hf
  rw [hchanged.contents path (hothers w hw).symm, hf]

/-- Neither of two places lies in the other. -/
def Beside (a b : Path) : Prop := ¬ a <+: b ∧ ¬ b <+: a

instance (a b : Path) : Decidable (Beside a b) := inferInstanceAs (Decidable (_ ∧ _))

theorem ChangedAt.room {f g : Files} {other target : Path} (h : ChangedAt other f g)
    (hbeside : Beside other target) (hroom : Room f target) : Room g target where
  noFile path hpath := by
    rw [h.contents path fun heq => hbeside.1 (heq ▸ (mem_above.mp hpath).1)]
    exact hroom.noFile path hpath
  noFolder := by
    rw [Bool.eq_false_iff]
    intro hfolder
    rcases h.folders target hfolder with hfolder | habove
    · exact Bool.eq_false_iff.mp hroom.noFolder hfolder
    · exact hbeside.2 (mem_above.mp habove).1

theorem Beside.target {w : Script} (h : Beside w.inside v.inside) : Beside (w.target o) (v.target o) := by
  unfold Beside Script.target
  rw [List.prefix_append_right_inj, List.prefix_append_right_inj]
  exact h

theorem Beside.ne {a b : Path} (h : Beside a b) : a ≠ b := fun heq => h.1 (heq ▸ List.prefix_refl a)

/-- A script among others: no two of them share a place, there is room for its text, and those
before it do not write over it. -/
structure Separate (o : Options) (files : Files) (before : List Script) (v : Script)
    (after : List Script) : Prop where
  named : ∀ w ∈ before ++ v :: after, w.Named
  beside : ∀ w ∈ before ++ after, Beside w.inside v.inside
  room : Room files (v.target o)
  source : ∀ w ∈ before, w.target o ≠ Path.ofText v.file

instance (o : Options) (files : Files) (before : List Script) (v : Script) (after : List Script) :
    Decidable (Separate o files before v after) :=
  decidable_of_iff ((∀ w ∈ before ++ v :: after, w.Named) ∧
      (∀ w ∈ before ++ after, Beside w.inside v.inside) ∧ Room files (v.target o) ∧
      ∀ w ∈ before, w.target o ≠ Path.ofText v.file)
    ⟨fun h => ⟨h.1, h.2.1, h.2.2.1, h.2.2.2⟩, fun h => ⟨h.named, h.beside, h.room, h.source⟩⟩

end

/-! ## One file alone -/

/-- What a fresh run on one dump alone writes. -/
def outputAlone (version : String) (bytes : Bytes) : Option Bytes :=
  (progressAfter (Run.withOptions { version := version, file := "input", output := "output" })
    { files := .ofContents [(["input"], bytes)] }).files.read? ["output"]

theorem outputAlone_eq {version : String} (h : Numbering.ofVersion? version = some numbering) :
    outputAlone version bytes = (textFor {} numbering "input" bytes).map encoded := by
  have hrun : Run.withOptions { version := version, file := "input", output := "output" } =
      (do Run.decompile numbering "input"; Run.writeFile "output"; return 0) := by
    unfold Run.withOptions
    rw [h]
    rfl
  have hinput : (Files.ofContents [(["input"], bytes)]).read? (Path.ofText "input") = some bytes := by
    rfl
  unfold outputAlone
  rw [hrun, progressAfter_bind, decompile_eq hinput]
  unfold textFor
  rcases Session.load {} numbering "input" bytes with ⟨_ | _, notes, s⟩
  · rfl
  · rw [files_bind_of_same fun _ _ => rfl,
      progressAfter_writeFile (show Path.ofText "output" = ["output"] by decide) (by simp) rfl rfl]
    exact read?_write_self _

/-! ## Runs over a folder -/

/-- The scripts that are found in a folder. -/
def scriptsAt (o : Options) (files : Files) (place : Run.Place) : List Script :=
  ((files.namesIn (Path.ofText o.folder ++ place.inside)).filter Run.isScript).map fun name =>
    ⟨joinText place.shown name, place.inside ++ [name]⟩

/-- The folders that are found in a folder. -/
def placesAt (o : Options) (files : Files) (place : Run.Place) : List Run.Place :=
  (files.foldersIn (Path.ofText o.folder ++ place.inside)).map fun name =>
    ⟨joinText place.shown name, place.inside ++ [name]⟩

theorem walk_cons (o : Options) (numbering : Numbering) (fuel : Nat) (place : Run.Place)
    (others : List Run.Place) (p : Progress) :
    Run.walk o numbering (fuel + 1) (place :: others) p =
      (convertAll o numbering (scriptsAt o p.files place) >>= fun _ =>
        Run.walk o numbering fuel (placesAt o p.files place ++ others)) p := by
  have hscripts : convertAll o numbering (scriptsAt o p.files place) =
      ((p.files.namesIn (Path.ofText o.folder ++ place.inside)).filter Run.isScript).forM fun name =>
        Run.report o numbering (joinText place.shown name) (place.inside ++ [name]) := List.forM_map
  rw [Run.walk, run_get, hscripts]
  rfl

/-- One of the scripts of a run from `p` on has the name of one, and it stands in the folder after some
of them are converted. -/
def Script.Fits (o : Options) (numbering : Numbering) (p : Progress) (scripts : List Script)
    (v : Script) : Prop :=
  (∃ name, v.inside.getLast? = some name ∧ Run.isScript name = true) ∧
  v.file = v.inside.foldl joinText o.folder ∧
  ∃ before, before <+: scripts ∧ ((progressAfter (convertAll o numbering before) p).files.read?
    (Path.ofText o.folder ++ v.inside)).isSome

theorem read?_of_namesIn {f : Files} {folder : Path} {name : String} (h : name ∈ f.namesIn folder) :
    (f.read? (folder ++ [name])).isSome := by
  obtain ⟨⟨path, bytes⟩, hmem, hname⟩ := List.mem_filterMap.mp (List.mem_mergeSort.mp h)
  refine List.lookup_isSome_iff.mpr ⟨_, hmem, ?_⟩
  rcases List.eq_nil_or_concat path with rfl | ⟨above, last, rfl⟩
  · cases hname
  · obtain ⟨rfl, rfl⟩ : above = folder ∧ last = name := by simpa [Path.nameIn?] using hname
    simp

theorem scriptsAt_fits {o : Options} {p : Progress} {place : Run.Place} {v : Script}
    (hplace : place.shown = place.inside.foldl joinText o.folder) (scripts : List Script)
    (hv : v ∈ scriptsAt o p.files place) : v.Fits o numbering p scripts := by
  obtain ⟨name, hname, rfl⟩ := List.mem_map.mp hv
  obtain ⟨hfound, hscript⟩ := List.mem_filter.mp hname
  refine ⟨⟨name, by simp, hscript⟩, by simp [hplace], [], List.nil_prefix, ?_⟩
  rw [← List.append_assoc]
  exact read?_of_namesIn hfound

theorem walk_eq_convertAll (o : Options) (numbering : Numbering) (fuel : Nat) (p : Progress)
    (places : List Run.Place) (hplaces : ∀ x ∈ places, x.shown = x.inside.foldl joinText o.folder) :
    ∃ scripts : List Script, (∀ v ∈ scripts, v.Fits o numbering p scripts) ∧
      Run.walk o numbering fuel places p = convertAll o numbering scripts p := by
  induction fuel generalizing places p with
  | zero => exact ⟨[], by simp, rfl⟩
  | succ fuel ih =>
    cases places with
    | nil => exact ⟨[], by simp, rfl⟩
    | cons place others =>
      obtain ⟨hplace, hothers⟩ := List.forall_mem_cons.mp hplaces
      obtain ⟨q, hq⟩ := convertAll_ok o numbering (scriptsAt o p.files place) p
      obtain ⟨scripts, hfit, hwalk⟩ := ih q (placesAt o p.files place ++ others) <| by
        refine List.forall_mem_append.mpr ⟨fun x hx => ?_, hothers⟩
        obtain ⟨name, -, rfl⟩ := List.mem_map.mp hx
        simp [hplace]
      refine ⟨scriptsAt o p.files place ++ scripts, fun v hv => ?_, ?_⟩
      · rcases List.mem_append.mp hv with hv | hv
        · exact scriptsAt_fits hplace _ hv
        · obtain ⟨hname, hfile, before, hbefore, hread⟩ := hfit v hv
          refine ⟨hname, hfile, _, (List.prefix_append_right_inj _).mpr hbefore, ?_⟩
          rwa [progressAfter_convertAll_append, progressAfter_ok hq]
      · rw [walk_cons, run_bind hq, convertAll_append, run_bind hq, hwalk]

theorem withOptions_eq_convertAll {o : Options}
    (hversion : Numbering.ofVersion? o.version = some numbering) (hfolder : o.folder ≠ "")
    (files : Files) :
    ∃ scripts : List Script, (∀ v ∈ scripts, v.Fits o numbering { files := files } scripts) ∧
      Run.withOptions o { files := files } =
        .ok 0 (progressAfter (convertAll o numbering scripts) { files := files }) := by
  obtain ⟨scripts, hfit, hwalk⟩ := walk_eq_convertAll o numbering (Run.walkBound o files)
    { files := files } [⟨o.folder, []⟩] (by simp)
  obtain ⟨q, hq⟩ := convertAll_ok o numbering scripts { files := files }
  refine ⟨scripts, hfit, ?_⟩
  rw [progressAfter_ok hq]
  unfold Run.withOptions
  rw [hversion]
  dsimp only
  rw [if_pos hfolder, run_get]
  exact (run_bind (hwalk.trans hq)).trans rfl

section
variable {o : Options} {files : Files} {before after : List Script} {v : Script}

theorem read?_convertAll_target (numbering : Numbering) (ho : o.outputFolder ≠ "")
    (h : Separate o files before v after)
    (hinput : files.read? (Path.ofText v.file) = some bytes) :
    (progressAfter (convertAll o numbering (before ++ v :: after)) { files := files }).files.read?
        (v.target o) =
      ((textFor (progressAfter (convertAll o numbering before) { files := files }).session numbering
        v.file bytes).map encoded).or (files.read? (v.target o)) := by
  have hnamed : ∀ w, w ∈ before ∨ w ∈ after → w.Named := by
    intro w hw
    exact h.named w (List.mem_append.mpr (hw.imp id (List.mem_cons_of_mem v)))
  have hbeside : ∀ w, w ∈ before ∨ w ∈ after → Beside (w.target o) (v.target o) := by
    intro w hw
    exact (h.beside w (List.mem_append.mpr hw)).target
  -- what the scripts before it leave: its bytes, its place and what stands there
  let p : Progress := progressAfter (convertAll o numbering before) { files := files }
  have hbytes : p.files.read? (Path.ofText v.file) = some bytes :=
    (read?_convertAll ho (fun w hw => hnamed w (.inl hw)) h.source).trans hinput
  have hold : p.files.read? (v.target o) = files.read? (v.target o) :=
    read?_convertAll ho (fun w hw => hnamed w (.inl hw)) fun w hw => (hbeside w (.inl hw)).ne
  have hroom : Room p.files (v.target o) :=
    convertAll_keeps ho (fun w hw => hnamed w (.inl hw))
      (fun w hw f g hchanged => hchanged.room (hbeside w (.inl hw))) h.room
  rw [progressAfter_convertAll_append, progressAfter_convertAll_cons,
    read?_convertAll ho (fun w hw => hnamed w (.inr hw)) fun w hw => (hbeside w (.inr hw)).ne,
    read?_report ((h.named v (by simp)).target ho) hbytes hroom, hold]

end

/-- A run over a folder converts scripts in some order. In whatever order they are converted, what
stands in the file of a script whose dump is not refused is the text that a fresh run on this
script alone writes; if the script cannot be decompiled, its file is left as it was. A script whose
dump is refused gets the text of the tree that those before it have left. -/
theorem folder_run_independent {o : Options} {numbering : Numbering}
    (hversion : Numbering.ofVersion? o.version = some numbering) (hfolder : o.folder ≠ "")
    (ho : o.outputFolder ≠ "") (files : Files) :
    (∃ scripts : List Script, (∀ v ∈ scripts, v.Fits o numbering { files := files } scripts) ∧
      Run.withOptions o { files := files } =
        .ok 0 (progressAfter (convertAll o numbering scripts) { files := files })) ∧
    ∀ (before : List Script) (v : Script) (after : List Script) (bytes : Bytes),
      Separate o files before v after → files.read? (Path.ofText v.file) = some bytes →
      let converted := progressAfter (convertAll o numbering (before ++ v :: after)) { files := files }
      ((Dump.read numbering v.file bytes).result ≠ .ok none →
        converted.files.read? (v.target o) =
          (outputAlone o.version bytes).or (files.read? (v.target o)) ∧
        ∀ e, (Session.load {} numbering v.file bytes).1 = .error e →
          converted.files.read? (v.target o) = files.read? (v.target o)) ∧
      ((Dump.read numbering v.file bytes).result = .ok none →
        converted.files.read? (v.target o) =
          some (encoded (progressAfter (convertAll o numbering before)
            { files := files }).session.write.1)) := by
  refine ⟨withOptions_eq_convertAll hversion hfolder files, ?_⟩
  intro before v after bytes hseparate hinput converted
  have htarget := read?_convertAll_target numbering ho hseparate hinput
  constructor
  · intro haccepted
    rw [textFor_of_session haccepted _ {}] at htarget
    constructor
    · rw [outputAlone_eq hversion, textFor, load_of_origin {} numbering v.file "input"]
      exact htarget
    · intro e hfails
      rw [textFor_of_error hfails] at htarget
      exact htarget
  · intro hrefused
    rw [textFor_of_refused hrefused] at htarget
    exact htarget

/-! ## A folder with three scripts -/

/-- A function that returns nothing. -/
def idleDump : Bytes :=
  [0x1b, 0x4c, 0x4a, 0x02, 0x02] ++ [0x0b, 0x00, 0x00, 0x02, 0x00, 0x00, 0x00, 0x01, 0x4b, 0x00, 0x01, 0x00]

/-- A function that returns 1. -/
def oneDump : Bytes :=
  [0x1b, 0x4c, 0x4a, 0x02, 0x02] ++
    [0x0f, 0x00, 0x00, 0x02, 0x00, 0x00, 0x00, 0x02, 0x29, 0x00, 0x01, 0x00, 0x4c, 0x00, 0x02, 0x00]

/-- Between two dumps stands a file that is none. -/
def folderFiles : Files :=
  .ofContents [(["in", "a.lua"], idleDump), (["in", "b.lua"], [1, 2, 3]), (["in", "c.lua"], oneDump)]

def folderOptions : Options := { folder := "in", outputFolder := "out" }

def scriptAt (name : String) : Script := ⟨"in/" ++ name, [name]⟩

theorem folder_run_independent_last :
    Separate folderOptions folderFiles [scriptAt "a.lua", scriptAt "b.lua"] (scriptAt "c.lua") [] ∧
    folderFiles.read? (Path.ofText "in/c.lua") = some oneDump ∧
    (Dump.read .current "in/c.lua" oneDump).result ≠ .ok none ∧
    (progressAfter (convertAll folderOptions .current
        [scriptAt "a.lua", scriptAt "b.lua", scriptAt "c.lua"]) { files := folderFiles }).files.read?
      ["out", "c.lua"] = outputAlone "2.1" oneDump ∧
    outputAlone "2.1" oneDump = some (encoded "return 1\n") := by
  have hseparate : Separate folderOptions folderFiles [scriptAt "a.lua", scriptAt "b.lua"]
      (scriptAt "c.lua") [] := by decide +kernel
  have hinput : folderFiles.read? (Path.ofText "in/c.lua") = some oneDump := by decide +kernel
  have haccepted : (Dump.read .current "in/c.lua" oneDump).result ≠ .ok none := by
    intro hrefused
    cases hrefused
  have htext : textFor {} .current "input" oneDump = some "return 1\n" := by decide +kernel
  have halone : outputAlone "2.1" oneDump = some (encoded "return 1\n") := by
    rw [outputAlone_eq (show Numbering.ofVersion? "2.1" = some .current by decide), htext]
    rfl
  have hrun := (folder_run_independent (o := folderOptions) (show _ = some .current by decide)
    (by decide) (by decide) folderFiles).2 _ _ _ _ hseparate hinput
  refine ⟨hseparate, hinput, haccepted, (hrun.1 haccepted).1.trans ?_, halone⟩
  rw [show folderOptions.version = "2.1" from rfl, halone]
  rfl

/-- The file that is no dump gets the text of the script before it, and an empty text if it is
converted alone. -/
theorem refused_script_gets_text :
    (Dump.read .current "in/b.lua" [1, 2, 3]).result = .ok none ∧
    (progressAfter (convertAll folderOptions .current
        [scriptAt "a.lua", scriptAt "b.lua", scriptAt "c.lua"]) { files := folderFiles }).files.read?
      ["out", "b.lua"] = some (encoded "return \n") ∧
    outputAlone "2.1" [1, 2, 3] = some (encoded "") := by
  have hrefused : (Dump.read .current (scriptAt "b.lua").file [1, 2, 3]).result = .ok none := rfl
  have hseparate : Separate folderOptions folderFiles [scriptAt "a.lua"] (scriptAt "b.lua")
      [scriptAt "c.lua"] := by decide +kernel
  have hinput : folderFiles.read? (Path.ofText "in/b.lua") = some [1, 2, 3] := by decide +kernel
  have hkept : (progressAfter (convertAll folderOptions .current [scriptAt "a.lua"])
      { files := folderFiles }).session.write.1 = "return \n" := by decide +kernel
  refine ⟨hrefused, (read?_convertAll_target .current (by decide) hseparate hinput).trans ?_, ?_⟩
  · rw [textFor_of_refused hrefused, hkept]
    rfl
  · rw [outputAlone_eq (show Numbering.ofVersion? "2.1" = some .current by decide),
      textFor_of_refused rfl]
    rfl

end LuaLift.Proofs
