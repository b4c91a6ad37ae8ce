import Mathlib.Data.List.TakeWhile
import LuaLift.CommandLine.Files

/-! # Paths and files

The text of a path below a folder, put together from names, has the components of the folder and
then the names, and the text up to its last component has all components but the last. What is
stored at a path is found there and nowhere else. -/
namespace LuaLift.Proofs
open CommandLine

/-- A text that can be the name of a file or a folder. -/
structure IsName (s : String) : Prop where
  notEmpty : s ≠ ""
  notHere : s ≠ "."
  notAbove : s ≠ ".."
  noSlash : '/' ∉ s.toList

instance (s : String) : Decidable (IsName s) :=
  decidable_of_iff (s ≠ "" ∧ s ≠ "." ∧ s ≠ ".." ∧ '/' ∉ s.toList)
    ⟨fun h => ⟨h.1, h.2.1, h.2.2.1, h.2.2.2⟩, fun h => ⟨h.1, h.2, h.3, h.4⟩⟩

variable {folder : String} {names : List String}

theorem foldl_step_names (h : ∀ name ∈ names, IsName name) (back : List String) :
    names.foldl Path.step back = names.reverse ++ back := by
  induction names generalizing back with
  | nil => rfl
  | cons name names ih =>
    obtain ⟨hempty, hhere, habove, -⟩ := h name List.mem_cons_self
    have hstep : Path.step back name = name :: back := by
      unfold Path.step
      rw [if_neg (by simp [hempty, hhere]), if_neg habove]
    rw [List.foldl_cons, hstep, ih fun n hn => h n (List.mem_cons_of_mem _ hn)]
    simp

/-! ## Pieces -/

theorem pieces_slash (a b : String) :
    Path.pieces (a ++ "/" ++ b) = Path.pieces a ++ Path.pieces b := by
  have htext : (a ++ "/" ++ b).toList = a.toList ++ '/' :: b.toList := by simp
  rw [Path.pieces, htext, List.splitOn_append_cons_self, List.map_append]
  rfl

theorem pieces_intercalate (h : ∀ name ∈ names, IsName name)
    (hsome : names ≠ []) : Path.pieces ("/".intercalate names) = names := by
  have hsplit : List.splitOn '/' (['/'].intercalate (names.map String.toList)) =
      names.map String.toList := by
    refine List.splitOn_intercalate '/' ?_ (by simpa using hsome)
    intro cs hcs
    obtain ⟨name, hname, rfl⟩ := List.mem_map.mp hcs
    exact (h name hname).noSlash
  rw [Path.pieces, String.toList_intercalate, show "/".toList = ['/'] from rfl, hsplit, List.map_map]
  simp [Function.comp_def]

theorem pieces_slash_end (a : String) : Path.pieces (a ++ "/") = Path.pieces a ++ [""] := by
  have h := pieces_slash a ""
  rwa [String.append_empty] at h

theorem ofText_slash (a b : String) : Path.ofText (a ++ "/" ++ b) =
    ((Path.pieces b).foldl Path.step (Path.ofText (a ++ "/")).reverse).reverse := by
  have hstart : (a ++ "/" ++ b).toList.head? = (a ++ "/").toList.head? := by
    cases h : a.toList <;> simp [h]
  unfold Path.ofText
  dsimp only
  rw [pieces_slash, pieces_slash_end, hstart, List.foldl_append, List.foldl_append, List.reverse_reverse]
  rfl

theorem ofText_slash_end {a : String} (h : a ≠ "") : Path.ofText (a ++ "/") = Path.ofText a := by
  have hstart : (a ++ "/").toList.head? = a.toList.head? := by
    cases hchars : a.toList with
    | nil => exact absurd (String.toList_eq_nil_iff.mp hchars) h
    | cons c cs => simp [hchars]
  unfold Path.ofText
  dsimp only
  rw [pieces_slash_end, hstart, List.foldl_append]
  rfl

theorem ofText_slashes {cs : List Char} (h : cs ≠ []) (n : Nat) :
    Path.ofText (String.ofList (cs ++ List.replicate n '/')) = Path.ofText (String.ofList cs) := by
  induction n with
  | zero => simp
  | succ n ih =>
    have htext : String.ofList (cs ++ List.replicate (n + 1) '/') =
        String.ofList (cs ++ List.replicate n '/') ++ "/" := by
      rw [List.replicate_succ', ← List.append_assoc, String.ofList_append]
    rw [htext, ofText_slash_end (by simp [h]), ih]

/-! ## Parents -/

theorem parentText_slash {a name : String} (h : IsName name) :
    parentText (a ++ "/" ++ name) ≠ "" ∧
      Path.ofText (parentText (a ++ "/" ++ name)) = Path.ofText (a ++ "/") := by
  have hback : (a ++ "/" ++ name).toList.reverse.dropWhile (· != '/') = '/' :: a.toList.reverse := by
    have hname : ∀ c ∈ name.toList.reverse, (c != '/') = true := by
      intro c hc
      have : c ≠ '/' := fun hslash => h.noSlash (hslash ▸ List.mem_reverse.mp hc)
      simpa using this
    have htext : (a ++ "/" ++ name).toList.reverse =
        name.toList.reverse ++ '/' :: a.toList.reverse := by simp
    rw [htext, List.dropWhile_append_of_pos hname]
    rfl
  unfold parentText
  dsimp only
  rw [hback, List.dropWhile_cons_of_pos (by simp)]
  split
  -- nothing but slashes stands before the name, and they are kept
  · have htext : String.ofList ('/' :: a.toList.reverse).reverse = a ++ "/" := by
      rw [List.reverse_cons, List.reverse_reverse, String.ofList_append, String.ofList_toList]
    rw [htext]
    exact ⟨by simp, rfl⟩
  · rename_i hsome
    generalize hn : (a.toList.reverse.takeWhile (· == '/')).length = n
    have htrimmed : a.toList =
        (a.toList.reverse.dropWhile (· == '/')).reverse ++ List.replicate n '/' := by
      have hslashes : a.toList.reverse.takeWhile (· == '/') = List.replicate n '/' :=
        List.eq_replicate_iff.mpr ⟨hn, fun c hc => by simpa using List.mem_takeWhile_imp hc⟩
      rw [← List.reverse_replicate, ← hslashes, ← List.reverse_append,
        List.takeWhile_append_dropWhile, List.reverse_reverse]
    have hne : (a.toList.reverse.dropWhile (· == '/')).reverse ≠ [] := by simpa using hsome
    refine ⟨by simpa using hsome, ?_⟩
    have ha : a ≠ "" := by
      intro ha
      rw [ha] at hne
      exact hne rfl
    rw [ofText_slash_end ha, ← ofText_slashes hne n, ← htrimmed, String.ofList_toList]

/-! ## Paths below a folder -/

theorem intercalate_ends_with_name (hsome : names ≠ []) :
    ∃ before, "/" ++ "/".intercalate names = before ++ "/" ++ names.getLast hsome := by
  induction names with
  | nil => exact absurd rfl hsome
  | cons name names ih =>
    cases names with
    | nil => exact ⟨"", by simp⟩
    | cons next names =>
      obtain ⟨before, hbefore⟩ := ih (by simp)
      refine ⟨"/" ++ name ++ before, ?_⟩
      rw [String.intercalate_cons_of_ne_nil (by simp), List.getLast_cons (by simp)]
      simp only [String.append_assoc] at hbefore ⊢
      rw [hbefore]

section
variable (hfolder : folder ≠ "") (h : ∀ name ∈ names, IsName name) (hsome : names ≠ [])
include hfolder h hsome

theorem joinText_names :
    ∃ a, joinText folder ("/".intercalate names) = a ++ "/" ++ "/".intercalate names ∧
      Path.ofText (a ++ "/") = Path.ofText folder := by
  have hrelative : ("/".intercalate names).toList.head? ≠ some '/' := by
    intro hhead
    obtain ⟨cs, hcs⟩ := List.head?_eq_some_iff.mp hhead
    have hpieces := pieces_intercalate h hsome
    rw [Path.pieces, hcs, ← List.nil_append ('/' :: cs), List.splitOn_append_cons_self] at hpieces
    have hempty : "" ∈ names := by
      rw [← hpieces]
      simp
    exact (h "" hempty).notEmpty rfl
  unfold joinText
  rw [if_neg hrelative]
  split
  · rename_i hslash
    obtain ⟨cs, hcs⟩ := List.getLast?_eq_some_iff.mp (hslash.resolve_left hfolder)
    have htext : folder = String.ofList cs ++ "/" := by
      rw [← String.toList_inj, hcs]
      simp
    exact ⟨String.ofList cs, by rw [← htext], by rw [← htext]⟩
  · exact ⟨folder, rfl, ofText_slash_end hfolder⟩

theorem ofText_joinText :
    Path.ofText (joinText folder ("/".intercalate names)) = Path.ofText folder ++ names := by
  obtain ⟨a, htext, hpath⟩ := joinText_names hfolder h hsome
  rw [htext, ofText_slash, hpath, pieces_intercalate h hsome, foldl_step_names h]
  simp

theorem parentText_joinText : parentText (joinText folder ("/".intercalate names)) ≠ "" ∧
      Path.ofText (parentText (joinText folder ("/".intercalate names))) =
        (Path.ofText folder ++ names).dropLast := by
  have hjoined := ofText_joinText hfolder h hsome
  obtain ⟨a, htext, -⟩ := joinText_names hfolder h hsome
  obtain ⟨before, hbefore⟩ := intercalate_ends_with_name hsome
  have hname := h _ (List.getLast_mem hsome)
  rw [String.append_assoc, hbefore, ← String.append_assoc, ← String.append_assoc] at htext
  obtain ⟨hparent, hpath⟩ := parentText_slash (a := a ++ before) hname
  have hpieces : Path.pieces ("/".intercalate [names.getLast hsome]) = [names.getLast hsome] :=
    pieces_intercalate (by simpa using hname) (by simp)
  rw [String.intercalate_singleton] at hpieces
  rw [htext] at hjoined ⊢
  refine ⟨hparent, ?_⟩
  rw [← hjoined, hpath, ofText_slash, hpieces, foldl_step_names (by simpa using hname)]
  simp

end

/-! ## Files and folders -/

section
variable {f : Files} {p q : Path}

theorem mem_above : q ∈ p.above ↔ q <+: p ∧ q ≠ p := by
  constructor
  · intro h
    obtain ⟨n, hn, rfl⟩ := List.mem_map.mp h
    have hn : n < p.length := List.mem_range.mp hn
    refine ⟨List.take_prefix n p, fun heq => ?_⟩
    have hlength := congrArg List.length heq
    rw [List.length_take] at hlength
    omega
  · intro h
    obtain ⟨hbelow, hne⟩ := h
    have hlength : q.length < p.length :=
      Nat.lt_of_le_of_ne hbelow.length_le fun heq => hne (hbelow.eq_of_length heq)
    exact List.mem_map.mpr ⟨q.length, List.mem_range.mpr hlength, List.prefix_iff_eq_take.mp hbelow ▸ rfl⟩

theorem mem_above_iff_dropLast (hp : p ≠ []) :
    q ∈ p.above ↔ q = p.dropLast ∨ q ∈ Path.above p.dropLast := by
  have hconcat : q <+: p ↔ q = p ∨ q <+: p.dropLast := by
    have hparts := List.dropLast_concat_getLast hp
    rw [← hparts, List.prefix_concat_iff, hparts]
  have hshorter : q <+: p.dropLast → q ≠ p := by
    intro hbelow heq
    have hlength := hbelow.length_le
    have hpos := List.length_pos_iff.mpr hp
    rw [heq, List.length_dropLast] at hlength
    omega
  rw [mem_above, mem_above, hconcat]
  constructor
  · intro h
    have hbelow := h.1.resolve_left h.2
    exact (Decidable.em (q = p.dropLast)).imp id fun hne => ⟨hbelow, hne⟩
  · intro h
    have hbelow : q <+: p.dropLast := h.elim (fun heq => heq ▸ List.prefix_refl q) And.left
    exact ⟨.inr hbelow, hshorter hbelow⟩

theorem read?_write_self (bytes : List UInt8) : (f.write p bytes).read? p = some bytes := by
  simp [Files.read?, Files.write]

theorem read?_write_of_ne (bytes : List UInt8) (h : q ≠ p) : (f.write p bytes).read? q = f.read? q := by
  have hothers : ∀ contents : List (Path × List UInt8),
      (contents.filter (·.1 != p)).lookup q = contents.lookup q := by
    intro contents
    induction contents with
    | nil => rfl
    | cons entry contents ih =>
      by_cases hentry : entry.1 = p
      · rw [List.filter_cons_of_neg (by simpa using hentry), ih, List.lookup_cons,
          beq_false_of_ne (hentry ▸ h)]
      · rw [List.filter_cons_of_pos (by simpa using hentry), List.lookup_cons, List.lookup_cons, ih]
  unfold Files.read? Files.write
  rw [List.lookup_cons, beq_false_of_ne h]
  exact hothers f.contents

theorem isFolder_addFolder : (f.addFolder p).isFolder q = true ↔
    f.isFolder q = true ∨ q = p ∨ q ∈ p.above := by
  simp only [Files.isFolder, Files.addFolder, Bool.or_eq_true, List.contains_eq_mem, decide_eq_true_eq,
    List.cons_append, List.mem_cons, List.mem_append]
  grind

end

end LuaLift.Proofs
