import SwiftTree.Proofs.Diagnostics
import SwiftTree.Proofs.Oblivious.Trees

/-!
# Reports on trees that differ in trivia

What is wrong with a text is read off its tree. It depends on kinds and spellings, on what is
missing, and on the constructs around a place. Trivia only shows in positions and in source text
that a message quotes. `Diagnostic.bare` leaves these out, and what is left is the same for trees
that differ in trivia (`Node.bare_report`).

So texts with the same tokens up to trivia have the same trees and diagnostics up to trivia. All
that counts of the tokens are the kinds, the spellings, which of them open a line and which touch
each other (`Token.sights`).
-/

namespace SwiftTree

open Grammar

/-! ## Diagnostics without places -/

/-- A cause without the source text that its message quotes. -/
def Cause.bare : Cause → Cause
  | expected items context => expected items context
  | expectedToEnd closer context => expectedToEnd closer context
  | expectedTernaryColon => expectedTernaryColon
  | extraneousAtTopLevel _ => extraneousAtTopLevel ""
  | unexpectedText _ context => unexpectedText "" context
  | unexpectedBeforeIfConfigClause _ => unexpectedBeforeIfConfigClause ""
  | unexpectedInIfConfigBlock _ => unexpectedInIfConfigBlock ""
  | removedCStyleFor => removedCStyleFor

/-- A diagnostic without its places and without quoted source text. -/
def Diagnostic.bare (d : Diagnostic) : Diagnostic := ⟨d.severity, d.cause.bare, .empty 0, none⟩

namespace Report

/-- A report without places and without quoted source text. -/
def bare (r : Report) : Report :=
  ⟨r.pending.map fun g => { g with offset := 0 }, r.found.map Diagnostic.bare⟩

variable (r : Report)

theorem bare_add (d : Diagnostic) : (r.add d).bare = r.bare.add d.bare := rfl

theorem bare_addAt (cause : Cause) (offset : Nat) :
    (r.addAt cause offset).bare = r.bare.addAt cause.bare 0 := rfl

/-- Flushing a report does not depend on places. -/
theorem bare_flush : r.flush.bare = r.bare.flush := by
  obtain ⟨pending, found⟩ := r
  cases pending <;> rfl

/-- What is missing at a place is added to what is missing at the same place, and places are left
out. -/
theorem bare_push (offset : Nat) (context : Option String) (item : String) :
    (r.push offset context item).bare = r.bare.push 0 context item := by
  obtain ⟨pending, found⟩ := r
  cases pending with
  | none => rfl
  | some g =>
    simp only [push, bare, Option.map_some]
    split
    · rfl
    · have hfound := congrArg Report.found (bare_flush ⟨some g, found⟩)
      exact congrArg (Report.mk (some ⟨0, context, [item]⟩)) hfound

end Report

/-! ## Places without trivia -/

/-- The kind of a tree that is no leaf. -/
def Green.nodeKind? : Green → Option Kind
  | node kind _ => some kind
  | leaf _ => none

@[simp] theorem Green.nodeKind?_bare (g : Green) : g.bare.nodeKind? = g.nodeKind? := by
  cases g <;> rfl

/-- A step of a way without trivia and without a position. -/
def Frame.bare (f : Frame) : Frame := ⟨f.kind, Green.bareAll f.children, 0, f.index⟩

namespace Node

/-- A place in the tree without trivia, without a position. -/
def bare (n : Node) : Node := ⟨n.kind, Green.bareAll n.children, 0, n.way.map Frame.bare⟩

theorem ofGreen_bare (g : Green) : ofGreen g.bare = (ofGreen g).bare := by
  rcases g with ⟨_, _⟩ | ⟨_ | _⟩ <;> rfl

variable (n : Node)

@[simp] theorem kind_bare : n.bare.kind = n.kind := rfl

@[simp] theorem green_bare : n.bare.green = n.green.bare := rfl

theorem bare_step (index : Nat) : n.bare.step index = (n.step index).map Frame.bare := rfl

/-- A node that a way leads to is stripped if the way is. -/
theorem ofWay_bare (way : List Frame) : ofWay (way.map Frame.bare) = (ofWay way).map bare := by
  induction way with
  | nil => rfl
  | cons f way ih =>
    rw [List.map_cons, ofWay, ih, ofWay]
    rfl

theorem ancestors_bare : n.bare.ancestors = n.ancestors.map bare :=
  congrArg (n.bare :: ·) (ofWay_bare n.way)

/-- The parent of a stripped node is the parent, stripped. -/
theorem parent_bare : n.bare.parent = n.parent.map bare := by
  obtain ⟨kind, children, offset, way⟩ := n
  cases way <;> rfl

/-- The name of a macro expansion is read off its first leaf. -/
theorem macroName_eq : macroName n =
    if n.green.leaves.head?.any (·.textTrimmed == "#keyPath".toList) then "'#keyPath' expression"
    else "macro expansion" := by
  rw [macroName, firstLeaf, ← green_leaves, List.head?_map, Option.any_map]
  cases n.leaves.head? <;> rfl

@[simp] theorem macroName_bare : macroName n.bare = macroName n := by
  have htext : (fun l : Green.Leaf => l.bare.textTrimmed == "#keyPath".toList)
      = (·.textTrimmed == "#keyPath".toList) := funext fun l => by rw [l.textTrimmed_bare]
  rw [macroName_eq, green_bare, Green.leaves_bare, List.head?_map, Option.any_map, macroName_eq]
  exact congrArg (fun p => if n.green.leaves.head?.any p then _ else _) htext

@[simp] theorem constructName?_bare : n.bare.constructName? = n.constructName? := by
  rw [constructName?, macroName_bare, kind_bare, constructName?]

/-- A place has its name from kinds and spellings. -/
@[simp] theorem context_bare : n.bare.context = n.context := by
  rw [context, ancestors_bare, List.findSome?_map, context]
  exact congrArg (n.ancestors.findSome? ·) (funext constructName?_bare)

@[simp] theorem missingItem?_bare : n.bare.missingItem? = n.missingItem? := by
  have hparent : n.bare.parent.map (·.kind) = n.parent.map (·.kind) := by
    rw [parent_bare, Option.map_map]
    rfl
  have hmissing : n.bare.isMissing = n.isMissing := Green.isMissing_bare n.green
  rw [missingItem?, hparent, hmissing, missingItem?]
  rfl

@[simp] theorem closesOpener_bare (index : Nat) (kind : Kind) :
    n.bare.closesOpener index kind = n.closesOpener index kind := by
  refine congrArg (Option.any · _) (funext fun opener => ?_)
  show (List.take index (Green.bareAll n.children)).any _ = _
  rw [Green.bareAll_eq_map, ← List.map_take, List.any_map]
  refine congrArg (List.any _) (funext fun g => ?_)
  rcases g with ⟨_, _⟩ | ⟨_ | _⟩ <;> rfl

@[simp] theorem unclosedCause_bare (closer : String) :
    n.bare.unclosedCause closer = n.unclosedCause closer := by
  rw [unclosedCause, context_bare, unclosedCause]

/-! ## Unexpected text -/

@[simp] theorem isAtTopLevel_bare : n.bare.isAtTopLevel = n.isAtTopLevel := by
  rw [isAtTopLevel, parent_bare, Option.any_map]
  rfl

@[simp] theorem isInIfConfigClause_bare : n.bare.isInIfConfigClause = n.isInIfConfigClause := by
  rw [isInIfConfigClause, parent_bare, Option.any_map]
  rfl

/-- Unexpected text is the clauses of a loop just if it is the second part of a loop, behind a
token. -/
theorem isCStyleClauses_iff : n.isCStyleClauses ↔
    ∃ t gs offset way, n.way = ⟨.forStmt, .leaf (.present t) :: gs, offset, 1⟩ :: way := by
  unfold isCStyleClauses
  split
  · rename_i t gs offset way h
    exact ⟨fun _ => ⟨t, gs, offset, way, h⟩, fun _ => rfl⟩
  · rename_i h
    refine ⟨nofun, ?_⟩
    rintro ⟨t, gs, offset, way, hway⟩
    exact (h t gs offset way hway).elim

@[simp] theorem isCStyleClauses_bare : n.bare.isCStyleClauses = n.isCStyleClauses := by
  rw [Bool.eq_iff_iff, isCStyleClauses_iff, isCStyleClauses_iff]
  constructor
  · rintro ⟨t, gs, offset, way, h⟩
    obtain ⟨⟨kind, children, offset', index⟩, way', hway, hframe, -⟩ := List.map_eq_cons_iff.mp h
    obtain ⟨rfl, hchildren, -, rfl⟩ := Frame.mk.inj hframe
    rcases children with _ | ⟨_ | t' | _, gs'⟩
    · cases hchildren
    · cases (List.cons.inj hchildren).1
    · exact ⟨t', gs', offset', way', hway⟩
    · cases (List.cons.inj hchildren).1
  · rintro ⟨t, gs, offset, way, h⟩
    exact ⟨t.bare, Green.bareAll gs, 0, way.map Frame.bare, congrArg (List.map Frame.bare) h⟩

/-- Which parts of a node are nodes, and of which kinds, does not depend on where they stand. -/
theorem kinds_elementsFrom (index offset : Nat) (gs : List Green) :
    (n.elementsFrom index offset gs).map (fun e => e.node?.map Node.kind)
      = gs.map Green.nodeKind? := by
  induction gs generalizing index offset with
  | nil => rfl
  | cons g gs ih =>
    rw [elementsFrom, List.map_cons, ih, List.map_cons]
    cases g <;> rfl

/-- The kind of the next node with the same parent is read off the parts of the parent. -/
theorem kind_nextSibling : n.nextSibling.map Node.kind = n.way.head?.bind fun f =>
    ((f.children.drop (f.index + 1)).filterMap Green.nodeKind?).head? := by
  obtain ⟨kind, children, offset, way⟩ := n
  cases way with
  | nil => rfl
  | cons f way =>
    let above : Node := ⟨f.kind, f.children, f.offset, way⟩
    have hkinds : ((above.elements.drop (f.index + 1)).filterMap Element.node?).map Node.kind
        = (f.children.drop (f.index + 1)).filterMap Green.nodeKind? := by
      have h := congrArg (List.drop (f.index + 1)) (kinds_elementsFrom above 0 f.offset f.children)
      rw [← List.map_drop, ← List.map_drop] at h
      have hid := congrArg (List.filterMap id) h
      rw [List.filterMap_map, List.filterMap_map] at hid
      rw [List.map_filterMap]
      exact hid
    show Option.map Node.kind (List.filterMap Element.node? _).head? = _
    rw [← List.head?_map, hkinds]
    rfl

/-- The kind of the next sibling does not depend on trivia. -/
theorem kind_nextSibling_bare : n.bare.nextSibling.map Node.kind = n.nextSibling.map Node.kind := by
  have hparts (f : Frame) : (f.bare.children.drop (f.index + 1)).filterMap Green.nodeKind?
      = (f.children.drop (f.index + 1)).filterMap Green.nodeKind? := by
    show List.filterMap _ (List.drop _ (Green.bareAll f.children)) = _
    rw [Green.bareAll_eq_map, ← List.map_drop, List.filterMap_map]
    exact congrArg (List.filterMap · _) (funext Green.nodeKind?_bare)
  rw [kind_nextSibling, kind_nextSibling]
  show ((n.way.map Frame.bare).head?).bind _ = _
  rw [List.head?_map, Option.bind_map]
  exact congrArg _ (funext fun f => congrArg List.head? (hparts f))

@[simp] theorem unexpectedCause_bare (above : Node) (text : String) :
    n.bare.unexpectedCause above.bare text = n.unexpectedCause above text := by
  have hnext : (n.bare.nextSibling.any fun next => next.kind == .ifConfigDecl)
      = n.nextSibling.any fun next => next.kind == .ifConfigDecl := by
    have h := congrArg (Option.any (· == .ifConfigDecl)) n.kind_nextSibling_bare
    rwa [Option.any_map, Option.any_map] at h
  rw [unexpectedCause, isAtTopLevel_bare, hnext, isInIfConfigClause_bare, context_bare,
    unexpectedCause]
  rfl

/-- The text of a cause does not say what is wrong. -/
theorem bare_unexpectedCause (above : Node) (text text' : String) :
    (n.unexpectedCause above text).bare = (n.unexpectedCause above text').bare := by
  unfold unexpectedCause
  split_ifs <;> rfl

/-- What is said of unexpected text does not depend on trivia, but for its place and what is quoted
of it. -/
theorem bare_unexpectedDiagnostic :
    n.bare.unexpectedDiagnostic.bare = n.unexpectedDiagnostic.bare := by
  rw [unexpectedDiagnostic, unexpectedDiagnostic, parent_bare, isCStyleClauses_bare]
  cases n.parent with
  | none => rfl
  | some above =>
    dsimp only [Option.map_some]
    split
    · rfl
    · rw [unexpectedCause_bare]
      exact congrArg (Diagnostic.mk .error · (.empty 0) none) (n.bare_unexpectedCause above _ _)

/-! ## Reports -/

theorem congr_of_bare {α : Type} {n n' : Node} {f : Node → α} (hf : ∀ n : Node, f n.bare = f n)
    (h : n.bare = n'.bare) : f n = f n' := by
  rw [← hf, h, hf]

@[simp] theorem missingPounds_bareAll (gs : List Green) :
    missingPounds (Green.bareAll gs) = missingPounds gs := by
  rcases gs with _ | ⟨⟨_, _⟩ | ⟨_ | ⟨kind, spelling⟩⟩, gs⟩
  · rfl
  · rfl
  · rfl
  · show missingPounds (.leaf (.missing kind spelling) :: Green.bareAll gs) = _
    unfold missingPounds
    split <;> split <;> simp_all

/-- What is said of a construct that is not closed does not depend on trivia. -/
theorem bare_reportUnclosed {n n' : Node} (h : n.bare = n'.bare) (offset offset' : Nat)
    (closer : Text)
    {r r' : Report} (hr : r.bare = r'.bare) :
    (n.reportUnclosed offset closer r).bare = (n'.reportUnclosed offset' closer r').bare := by
  have hcause := congr_of_bare (f := fun n => n.unclosedCause (String.ofList closer))
    (fun n => n.unclosedCause_bare _) h
  rw [reportUnclosed, reportUnclosed, Report.bare_addAt, Report.bare_addAt, Report.bare_flush,
    Report.bare_flush, hr, hcause]

mutual

/-- Reporting on a part of a place sees no trivia. -/
theorem bare_reportIn {n n' : Node} (h : n.bare = n'.bare) (index offset offset' : Nat)
    {r r' : Report} (hr : r.bare = r'.bare) : (g : Green) →
    (n.reportIn unexpectedDiagnostic index offset r g).bare
      = (n'.reportIn unexpectedDiagnostic index offset' r' g.bare).bare
  | .leaf _ => hr
  | .node kind children => by
    have hbelow : Node.bare ⟨kind, children, offset, n.step index⟩
        = Node.bare ⟨kind, Green.bareAll children, offset', n'.step index⟩ := by
      rw [bare, bare, ← bare_step, ← bare_step, h, Green.bareAll_bareAll]
    have hflush : r.flush.bare = r'.flush.bare := by rw [Report.bare_flush, hr, Report.bare_flush]
    rw [Green.bare, reportIn, reportIn]
    split
    · have hunexpected := congr_of_bare (f := fun n => n.unexpectedDiagnostic.bare)
        bare_unexpectedDiagnostic hbelow
      rw [Report.bare_add, hflush, hunexpected, Report.bare_add]
    · rw [congr_of_bare missingItem?_bare hbelow]
      split
      · rw [Report.bare_push, hr, congr_of_bare context_bare hbelow, Report.bare_push]
      · refine bare_reportFrom hbelow 0 offset offset' false ?_ children
        have hpresent := congr_of_bare (f := fun n => n.green.hasPresent)
          (fun n => Green.hasPresent_bare n.green) hbelow
        rw [hpresent]
        split
        · exact hflush
        · exact hr

/-- Reporting on parts of a place sees no trivia. -/
theorem bare_reportFrom {n n' : Node} (h : n.bare = n'.bare) (index offset offset' : Nat)
    (quoted : Bool) {r r' : Report} (hr : r.bare = r'.bare) : (gs : List Green) →
    (n.reportFrom unexpectedDiagnostic index offset quoted r gs).bare
      = (n'.reportFrom unexpectedDiagnostic index offset' quoted r' (Green.bareAll gs)).bare
  | [] => hr
  | .node kind children :: gs =>
    have hnode := bare_reportIn h index offset offset' hr (.node kind children)
    bare_reportFrom h (index + 1) _ _ false hnode gs
  | .leaf (.present t) :: gs => by
    have hflush : r.flush.bare = r'.flush.bare := by rw [Report.bare_flush, hr, Report.bare_flush]
    exact bare_reportFrom h (index + 1) _ _ false hflush gs
  | .leaf (.missing kind spelling) :: gs => by
    have hflush : r.flush.bare = r'.flush.bare := by rw [Report.bare_flush, hr, Report.bare_flush]
    have hkind : n.kind = n'.kind := congr_of_bare kind_bare h
    have hopener := congr_of_bare (f := fun n => n.closesOpener index kind)
      (fun n => n.closesOpener_bare index kind) h
    rw [reportFrom]
    show _ = (n'.reportFrom unexpectedDiagnostic index offset' quoted r'
      (.leaf (.missing kind spelling) :: Green.bareAll gs)).bare
    rw [reportFrom, hkind, hopener, missingPounds_bareAll]
    split
    · exact bare_reportFrom h (index + 1) offset offset' false hr gs
    · split
      · refine bare_reportFrom h (index + 1) offset offset' false ?_ gs
        rw [Report.bare_addAt, hflush, Report.bare_addAt]
      · split
        · exact bare_reportFrom h (index + 1) offset offset' true
            (bare_reportUnclosed h _ _ _ hr) gs
        · refine bare_reportFrom h (index + 1) offset offset' false ?_ gs
          rw [Report.bare_push, hr, congr_of_bare context_bare h, Report.bare_push]

end

/-- Places that differ in trivia have the same report up to places and quoted text. A report looks
at kinds, at spellings, and at what is missing. -/
theorem bare_report {n n' : Node} (h : n.bare = n'.bare) :
    (n.report unexpectedDiagnostic).bare = (n'.report unexpectedDiagnostic).bare := by
  have hchildren : Green.bareAll n.children = Green.bareAll n'.children := congrArg Node.children h
  rw [report, Report.bare_flush, bare_reportFrom h 0 n.offset n'.offset false rfl n.children,
    hchildren, ← bare_reportFrom rfl 0 n'.offset n'.offset false rfl n'.children,
    ← Report.bare_flush, report]

end Node

/-! ## Texts that differ in trivia -/

namespace Token

/-- What the grammar sees of a token. -/
structure Sight where
  /-- what the token is -/
  kind : Kind
  /-- the spelling -/
  text : Text
  /-- whether it opens a line -/
  opensLine : Bool
  /-- whether nothing separates it from the token before it -/
  touches : Bool
deriving DecidableEq, Repr

/-- What the grammar sees of tokens behind the token `prev`. -/
def sights (prev : Option Token) : List Token → List Sight
  | [] => []
  | t :: ts => ⟨t.kind, t.text, t.opensLine prev, t.touches prev⟩ :: sights (some t) ts

/-- The last token does not change what is seen of the ones before. -/
theorem sights_dropLast (prev : Option Token) (ts : List Token) :
    sights prev ts.dropLast = (sights prev ts).dropLast := by
  induction ts generalizing prev with
  | nil => rfl
  | cons t ts ih =>
    cases ts with
    | nil => rfl
    | cons u ts =>
      rw [List.dropLast_cons_cons, sights, ih]
      rfl

/-- Whether the last of some tokens opens a line is seen. -/
theorem opensLine_getLast?_sights (prev : Option Token) (ts : List Token) :
    (sights prev ts).getLast?.any Sight.opensLine
      = ts.getLast?.any (opensLine (ts.dropLast.getLast?.or prev)) := by
  induction ts generalizing prev with
  | nil => rfl
  | cons t ts ih =>
    cases ts with
    | nil => rfl
    | cons u us =>
      have hfirst : sights prev (t :: u :: us)
          = ⟨t.kind, t.text, t.opensLine prev, t.touches prev⟩ :: sights (some t) (u :: us) := rfl
      have hnext : (sights (some t) (u :: us)).getLast?.any Sight.opensLine
          = (u :: us).getLast?.any (opensLine ((u :: us).dropLast.getLast?.or (some t))) :=
            ih (some t)
      have hprev : (t :: (u :: us).dropLast).getLast?.or prev
          = (u :: us).dropLast.getLast?.or (some t) := by
        rw [List.getLast?_cons, Option.some_or]
        cases (u :: us).dropLast.getLast? <;> rfl
      rw [hfirst, List.dropLast_cons_cons, hprev, List.getLast?_cons_cons, ← hnext]
      rfl

/-- Whether the end of the file opens a line can be seen on the tokens. -/
theorem lastOpensLine_congr {ts us : List Token} (h : sights none ts = sights none us) :
    lastOpensLine ts = lastOpensLine us := by
  have hseen (ts : List Token) :
    lastOpensLine ts = (sights none ts).getLast?.any Sight.opensLine := by
    rw [opensLine_getLast?_sights, Option.or_none, lastOpensLine]
  rw [hseen, h, ← hseen]

end Token

/-- Tokens that the grammar sees alike differ in trivia and positions. -/
theorem Grammar.Lexeme.bare_ofTokens {endOpensLine : Bool} {pos pos' : Nat}
    {prev prev' : Option Token} {ts us : List Token}
    {hts : ∀ t ∈ ts, t.IsSolid} {hus : ∀ t ∈ us, t.IsSolid}
    (h : Token.sights prev ts = Token.sights prev' us) :
    Ahead.bare (ofTokens endOpensLine pos prev ts hts)
      = Ahead.bare (ofTokens endOpensLine pos' prev' us hus) := by
  induction ts generalizing pos pos' prev prev' us with
  | nil =>
    cases us with
    | nil => rfl
    | cons u us => cases h
  | cons t ts ih =>
    cases us with
    | nil => cases h
    | cons u us =>
      obtain ⟨hhead, htail⟩ := List.cons.inj h
      obtain ⟨hkind, htext, hline, htouches⟩ := Token.Sight.mk.inj hhead
      rw [ofTokens, ofTokens, Ahead.bare_cons, Ahead.bare_cons]
      refine congrArg₂ List.cons ?_ (ih htail)
      simp only [bare, Token.bare, hkind, htext, hline, htouches]

namespace Entry

variable {text text' : Text} (e : Entry)

/-- Texts with the same tokens up to trivia have the same diagnostics up to places and quoted
text. -/
theorem bare_diagnostics (h : (Ahead.ofText text).bare = (Ahead.ofText text').bare) :
    (Parse.ofText e text).diagnostics.map Diagnostic.bare
      = (Parse.ofText e text').diagnostics.map Diagnostic.bare := by
  have hfound (text : Text) : (Parse.ofText e text).diagnostics.map Diagnostic.bare
      = ((Node.ofGreen (e.tree text)).report Node.unexpectedDiagnostic).bare.found.reverse := by
    rw [e.diagnostics_eq, ← Node.found_eq, List.map_reverse]
    rfl
  have hroot : (Node.ofGreen (e.tree text)).bare = (Node.ofGreen (e.tree text')).bare := by
    rw [← Node.ofGreen_bare, e.bare_tree h, Node.ofGreen_bare]
  rw [hfound, hfound, Node.bare_report hroot]

end Entry

/-- What trivia contains does not influence parsing. Texts with equally many tokens, which agree in
kind, spelling, whether they open a line and whether anything separates them from the token before,
have the same tree up to trivia and the same diagnostics up to places and quoted text. -/
theorem Parse.trivia_irrelevant (e : Entry) (text text' : Text)
    (h : Token.sights none (Token.stream text) = Token.sights none (Token.stream text')) :
    (ofText e text).tree.bare = (ofText e text').tree.bare ∧
      (ofText e text).diagnostics.map Diagnostic.bare
        = (ofText e text').diagnostics.map Diagnostic.bare := by
  have hahead : (Ahead.ofText text).bare = (Ahead.ofText text').bare := by
    rw [Ahead.ofText, Ahead.ofText, Token.lastOpensLine_congr h]
    exact Lexeme.bare_ofTokens (by rw [Token.sights_dropLast, h, Token.sights_dropLast])
  exact ⟨e.bare_tree hahead, e.bare_diagnostics hahead⟩

/-- Two calls without a closing parenthesis differ in a comment and in blanks. -/
theorem Parse.trivia_irrelevant_call :
    let text : Text := "f(1 /* one */ +  2 ".toList
    let text' : Text := "f(1 /**/ + 2 // two".toList
    Token.sights none (Token.stream text) = Token.sights none (Token.stream text') ∧
      (ofText .sourceFile text).tree.bare = (ofText .sourceFile text').tree.bare ∧
      (ofText .sourceFile text).diagnostics.map Diagnostic.bare
        = (ofText .sourceFile text').diagnostics.map Diagnostic.bare := by
  intro text text'
  let seen := Token.sights none ((Token.stream? 30 text).getD [])
  have hseen {text : Text} (h : (Token.stream? 30 text).any fun ts =>
    Token.sights none ts == seen) :
      Token.sights none (Token.stream text) = seen := beq_iff_eq.mp (Token.of_stream? h)
  have h : Token.sights none (Token.stream text) = Token.sights none (Token.stream text') :=
    (hseen (by decide +kernel)).trans (hseen (by decide +kernel)).symm
  exact ⟨h, trivia_irrelevant .sourceFile text text' h⟩

end SwiftTree
