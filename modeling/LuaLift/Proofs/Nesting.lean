import Mathlib.Data.List.Basic
import LuaLift.Lua.Layout

/-! # Nested commands

The commands of a program start and finish statements and open and close blocks. `Nested`
describes how: a block stands inside a statement and holds statements of its own, as the body
of a function does, or goes on with that statement, as the records of a constructor do. Nested
commands leave nothing open (`Nested.bracketsAfter`), what follows a statement is another one
or the end of its block (`Nested.allFollowed`), and they have a text (`Nested.render`). -/
namespace LuaLift.Proofs
open Lua

/-- What commands can leave open. -/
inductive Bracket where
  | statement (k : StatementKind)
  | block
deriving DecidableEq

/-- Whether no statement is open, at the outermost level or inside the innermost block. -/
def isIdle : List Bracket → Bool
  | .statement _ :: _ => false
  | _ => true

/-- What is open after a command, innermost first. There is no answer for a statement that
starts inside another one without a block, and for an end that does not fit what is open. -/
def openAfter : List Bracket → Command → Option (List Bracket)
  | bs, .start k => if isIdle bs then some (.statement k :: bs) else none
  | .statement k' :: bs, .finish k => if k' = k then some bs else none
  | bs, .openBlock => some (.block :: bs)
  | .block :: bs, .closeBlock => some bs
  | bs, .endLine | bs, .text _ => some bs
  | _, _ => none

/-- What is open after a list of commands. -/
def bracketsAfter : List Bracket → List Command → Option (List Bracket)
  | bs, [] => some bs
  | bs, c :: cs => (openAfter bs c).bind (bracketsAfter · cs)

/-- The commands that can come next after a statement. -/
def isBoundary : Command → Bool
  | .start _ | .openBlock | .closeBlock => true
  | _ => false

/-- Nested commands: those written inside a statement, or a list of statements. -/
inductive Nested : (inside : Bool) → List Command → Prop
  | nil {b} : Nested b []
  | text {b s cs} : Nested b cs → Nested b (.text s :: cs)
  | endLine {b cs} : Nested b cs → Nested b (.endLine :: cs)
  | block {b body cs} : Nested b body → Nested true cs →
      Nested true (.openBlock :: body ++ .closeBlock :: cs)
  | statement {k body cs} : Nested true body → Nested false cs →
      Nested false (.start k :: body ++ .finish k :: cs)

variable {b : Bool} {cs : List Command}

theorem Nested.append {cs' : List Command} (h : Nested b cs) (h' : Nested b cs') :
    Nested b (cs ++ cs') := by
  induction h with
  | nil => exact h'
  | text _ ih => exact .text (ih h')
  | endLine _ ih => exact .endLine (ih h')
  | block hbody _ _ ih =>
    rw [List.append_assoc, List.cons_append]
    exact .block hbody (ih h')
  | statement hbody _ _ ih =>
    rw [List.append_assoc, List.cons_append]
    exact .statement hbody (ih h')

theorem Nested.bracketsAfter (h : Nested b cs) (bs : List Bracket) (hidle : b = false → isIdle bs = true)
    (rest : List Command) : bracketsAfter bs (cs ++ rest) = bracketsAfter bs rest := by
  induction h generalizing bs rest with
  | nil => rfl
  | text _ ih => exact ih bs hidle rest
  | endLine _ ih => exact ih bs hidle rest
  | @block b body cs _ _ ihbody ihcs =>
    have hbody := ihbody (.block :: bs) (fun _ => rfl) (.closeBlock :: (cs ++ rest))
    simp only [List.append_assoc, List.cons_append, Proofs.bracketsAfter, openAfter, Option.bind_some]
    rw [hbody]
    exact ihcs bs hidle rest
  | @statement k body cs _ _ ihbody ihcs =>
    have hbody := ihbody (.statement k :: bs) (by simp) (.finish k :: (cs ++ rest))
    simp only [List.append_assoc, List.cons_append, Proofs.bracketsAfter, openAfter, hidle rfl, if_true,
      Option.bind_some]
    rw [hbody]
    simpa [Proofs.bracketsAfter, openAfter] using ihcs bs hidle rest

/-- Each statement that is finished is followed by a boundary. -/
def AllFollowed : List Command → Prop
  | [] => True
  | .finish _ :: cs => isBoundary (nextSignificant cs) = true ∧ AllFollowed cs
  | _ :: cs => AllFollowed cs

theorem Nested.nextSignificant (h : Nested b cs) (hb : b = false) {rest : List Command}
    (hrest : isBoundary (nextSignificant rest) = true) :
    isBoundary (nextSignificant (cs ++ rest)) = true := by
  induction h with
  | nil => exact hrest
  | text _ ih => exact ih hb
  | endLine _ ih => exact ih hb
  | block => rfl
  | statement => rfl

theorem Nested.allFollowed (h : Nested b cs) (rest : List Command)
    (hnext : b = false → isBoundary (Lua.nextSignificant rest) = true) (hrest : AllFollowed rest) :
    AllFollowed (cs ++ rest) := by
  induction h generalizing rest with
  | nil => exact hrest
  | text _ ih => exact ih rest hnext hrest
  | endLine _ ih => exact ih rest hnext hrest
  | @block b body cs _ _ ihbody ihcs =>
    rw [List.append_assoc, List.cons_append]
    exact ihbody (.closeBlock :: (cs ++ rest)) (fun _ => rfl) (ihcs rest hnext hrest)
  | @statement k body cs _ hcs ihbody ihcs =>
    rw [List.append_assoc, List.cons_append]
    exact ihbody (.finish k :: (cs ++ rest)) (by simp)
      ⟨hcs.nextSignificant rfl (hnext rfl), ihcs rest hnext hrest⟩

theorem AllFollowed.followed {before after : List Command} {k : StatementKind}
    (h : AllFollowed (before ++ .finish k :: after)) : isBoundary (Lua.nextSignificant after) = true := by
  induction before with
  | nil => exact h.1
  | cons c before ih =>
    cases c with
    | finish k' => exact ih h.2
    | _ => exact ih h

theorem gapAfter_ok {k : StatementKind} {c : Command} (h : isBoundary c = true) :
    ∃ gap, gapAfter k c = .ok gap := by
  cases c with
  | start k' => exact ⟨_, rfl⟩
  | openBlock | closeBlock => exact ⟨false, rfl⟩
  | finish k' | endLine | text s => cases h

/-- The text of nested commands is written without a fault, and the indentation is what it was. -/
theorem Nested.render (h : Nested b cs) (indent : Nat) (fresh : Bool) (out : String)
    (rest : List Command) (hnext : b = false → isBoundary (Lua.nextSignificant rest) = true) :
    ∃ fresh' out', renderFrom indent fresh out (cs ++ rest) = renderFrom indent fresh' out' rest := by
  induction h generalizing indent fresh out rest with
  | nil => exact ⟨fresh, out, rfl⟩
  | text _ ih => exact ih indent _ _ rest hnext
  | endLine _ ih => exact ih indent _ _ rest hnext
  | @block b body cs _ _ ihbody ihcs =>
    rw [List.append_assoc, List.cons_append]
    obtain ⟨fresh', out', hbody⟩ := ihbody (indent + 1) fresh out (.closeBlock :: (cs ++ rest))
      (fun _ => rfl)
    obtain ⟨fresh'', out'', hcs⟩ := ihcs indent fresh' out' rest hnext
    exact ⟨fresh'', out'', hbody.trans hcs⟩
  | @statement k body cs _ hcs ihbody ihcs =>
    rw [List.append_assoc, List.cons_append]
    obtain ⟨fresh', out', hbody⟩ := ihbody indent fresh out (.finish k :: (cs ++ rest)) (by simp)
    obtain ⟨gap, hgap⟩ := gapAfter_ok (k := k) (hcs.nextSignificant rfl (hnext rfl))
    have hfinish : renderFrom indent fresh' out' (.finish k :: (cs ++ rest)) =
        renderFrom indent true (out' ++ if gap then "\n\n" else "\n") (cs ++ rest) := by
      rw [renderFrom, hgap]
      cases gap <;> rfl
    obtain ⟨fresh'', out'', hrest⟩ := ihcs indent true (out' ++ if gap then "\n\n" else "\n") rest
      hnext
    exact ⟨fresh'', out'', hbody.trans (hfinish.trans hrest)⟩

/-! ## Indentation -/

/-- Number of blocks that are open. -/
def openBlocks (bs : List Bracket) : Nat := bs.count .block

theorem openAfter_blocks {bs bs' : List Bracket} {c : Command} (h : openAfter bs c = some bs') :
    openBlocks bs' + [c].count .closeBlock = openBlocks bs + [c].count .openBlock := by
  unfold openAfter at h
  split at h
  · split at h
    · cases h; rfl
    · cases h
  · split at h
    · cases h; rfl
    · cases h
  all_goals cases h
  all_goals simp [openBlocks]

/-- Blocks are closed as often as they were opened, but for those that are open now. -/
theorem bracketsAfter_blocks {bs bs' : List Bracket} (h : bracketsAfter bs cs = some bs') :
    openBlocks bs' + cs.count .closeBlock = openBlocks bs + cs.count .openBlock := by
  induction cs generalizing bs with
  | nil => cases h; rfl
  | cons c cs ih =>
    obtain ⟨bs1, hc, hcs⟩ := Option.bind_eq_some_iff.mp h
    have hfirst := openAfter_blocks hc
    have hrest := ih hcs
    rw [List.count_cons, List.count_cons]
    simp only [List.count_singleton] at hfirst
    omega

theorem bracketsAfter_append (bs : List Bracket) (before after : List Command) :
    bracketsAfter bs (before ++ after) = (bracketsAfter bs before).bind (bracketsAfter · after) := by
  induction before generalizing bs with
  | nil => rfl
  | cons c before ih =>
    simp only [List.cons_append, bracketsAfter, Option.bind_assoc]
    cases openAfter bs c with
    | none => rfl
    | some bs' => exact ih bs'

/-- Commands of a whole program. Statements start when none is open and end where they started,
what follows a statement is a boundary, and blocks are closed after they were opened. -/
structure WellNested (cs : List Command) : Prop where
  brackets : bracketsAfter [] cs = some []
  followed : ∀ before k after, cs = before ++ .finish k :: after → isBoundary (nextSignificant after) = true
  indented : ∀ before after, cs = before ++ after → before.count .closeBlock ≤ before.count .openBlock
  closed : cs.count .closeBlock = cs.count .openBlock

theorem Nested.wellNested (h : Nested false cs) : WellNested cs := by
  have hbrackets : Proofs.bracketsAfter [] cs = some [] := by
    simpa [Proofs.bracketsAfter] using h.bracketsAfter [] (fun _ => rfl) []
  refine ⟨hbrackets, ?_, ?_, ?_⟩
  · rintro before k after rfl
    have hall := h.allFollowed [] (fun _ => rfl) trivial
    rw [List.append_nil] at hall
    exact hall.followed
  · rintro before after rfl
    rw [bracketsAfter_append] at hbrackets
    obtain ⟨bs, hbefore, -⟩ := Option.bind_eq_some_iff.mp hbrackets
    have := bracketsAfter_blocks hbefore
    simp only [openBlocks, List.count_nil] at this
    omega
  · have := bracketsAfter_blocks hbrackets
    omega

theorem Nested.hasText (h : Nested false cs) : ∃ t, Lua.render cs = (t, none) := by
  obtain ⟨fresh, out, hall⟩ := h.render 0 true "" [] (fun _ => rfl)
  rw [List.append_nil] at hall
  exact ⟨out, hall⟩

end LuaLift.Proofs
