import Mathlib.Data.List.Basic
import SwiftTree.Diagnostic.Report
import SwiftTree.Proofs.Missing

/-!
# What a report is made of

A report is written in one pass over a tree, which holds missing items back until a token follows
them. Two things are done at once here, and they are taken apart: going through the tree gives a
list of signals (`Node.signalsFrom`), and the signals are put together to findings
(`Signal.findings`), one for each diagnostic. A report is the diagnostics of the findings
(`Node.report_eq`).

What is said of unexpected text depends on what a parser has noted by position. Here it is told by
where the text stands in the tree (`Node.unexpectedDiagnostic`): the clauses of a C-style loop stand
behind its word. That both say the same of every text is shown elsewhere
(`Entry.diagnosticBy_overrides`), and a report only asks about the unexpected nodes of its tree
(`Node.report_congr`).
-/

namespace SwiftTree

/-! ## Unexpected text and where it stands -/

namespace Node

/-- Whether the unexpected node `n` holds the clauses of a C-style loop: it follows the word that a
`for` statement starts with. -/
def isCStyleClauses (n : Node) : Bool :=
  match n.way with
  | ⟨.forStmt, .leaf (.present _) :: _, _, 1⟩ :: _ => true
  | _ => false

/-- What the place of an unexpected node says of it: the clauses of a C-style loop are reported at
the word of the loop, and other text is quoted. -/
def unexpectedDiagnostic (n : Node) : Diagnostic :=
  let range := n.trimmedRange
  let text := String.ofList n.textTrimmed
  match n.parent with
  | none => .error (.unexpectedText text none) range
  | some above =>
    if n.isCStyleClauses then
      let keyword := (above.firstLeaf.map Leaf.trimmedRange).getD range
      { Diagnostic.error .removedCStyleFor keyword with
        highlight := some ⟨range.start, n.range.stop⟩ }
    else .error (n.unexpectedCause above text) range

variable {judge judge' : Node → Diagnostic}

mutual

/-- How unexpected nodes are judged only matters for those in the part that a report goes
through. -/
theorem reportIn_congr {n : Node} {index offset : Nat} {r : Report} : {g : Green} →
    (∀ d ∈ n.nodesIn index offset g, d.kind = .unexpected → judge d = judge' d) →
    n.reportIn judge index offset r g = n.reportIn judge' index offset r g
  | .leaf _, _ => by rw [reportIn, reportIn]
  | .node kind children, h => by
    rw [nodesIn, List.forall_mem_cons] at h
    rw [reportIn, reportIn]
    split
    · rename_i hkind
      rw [h.1 hkind]
    · split
      · rfl
      · exact reportFrom_congr h.2

/-- The same for several parts, one after the other. -/
theorem reportFrom_congr {n : Node} {index offset : Nat} {quoted : Bool} {r : Report} :
    {gs : List Green} →
    (∀ d ∈ n.nodesFrom index offset gs, d.kind = .unexpected → judge d = judge' d) →
    n.reportFrom judge index offset quoted r gs = n.reportFrom judge' index offset quoted r gs
  | [], _ => by rw [reportFrom, reportFrom]
  | .node kind children :: gs, h => by
    rw [nodesFrom, List.forall_mem_append] at h
    rw [reportFrom, reportFrom, reportIn_congr h.1]
    exact reportFrom_congr h.2
  | .leaf (.present t) :: gs, h => by
    rw [nodesFrom, List.forall_mem_append] at h
    rw [reportFrom, reportFrom]
    exact reportFrom_congr h.2
  | .leaf (.missing kind spelling) :: gs, h => by
    rw [nodesFrom, List.forall_mem_append] at h
    rw [reportFrom, reportFrom]
    split
    · exact reportFrom_congr h.2
    · split
      · exact reportFrom_congr h.2
      · split <;> exact reportFrom_congr h.2

end

/-- A report asks what to say of the unexpected nodes below its node, and of no others. So two ways
to judge unexpected text make the same report if they agree on these nodes. -/
theorem report_congr {n : Node}
    (h : ∀ d ∈ n.descendants, d.kind = .unexpected → judge d = judge' d) :
    n.report judge = n.report judge' := by
  rw [report, report, reportFrom_congr fun d hd => h d (List.mem_cons_of_mem _ hd)]

end Node

/-! ## Missing parts -/

namespace Element

/-- Where the part starts. -/
def offset : Element → Nat
  | node n => n.offset
  | leaf l => l.offset

/-- The construct that the part is in. -/
def context : Element → Option String
  | node n => n.context
  | leaf l => l.parent.context

/-- What the part stands for when it is missing. -/
def item : Element → String
  | node n => n.missingItem?.getD ""
  | leaf l => missingTokenItem l.kind l.green.textTrimmed

/-- Whether the part is reported as something missing: a missing token, or a node that stands for
something that was not found. -/
def IsLacking : Element → Prop
  | node n => n.missingItem?.isSome
  | leaf l => l.isPresent = false

end Element

/-- Missing parts that are reported together. -/
structure MissingRun where
  /-- the first of them -/
  first : Element
  /-- the others, in source order -/
  others : List Element

namespace MissingRun

/-- The parts of a run. -/
def parts (m : MissingRun) : List Element := m.first :: m.others

/-- Adds a part at the end of a run. -/
def push (m : MissingRun) (e : Element) : MissingRun := { m with others := m.others ++ [e] }

@[simp] theorem parts_push (m : MissingRun) (e : Element) : (m.push e).parts = m.parts ++ [e] := rfl

/-- A run as a report holds it back. -/
def group (m : MissingRun) : MissingGroup :=
  ⟨m.first.offset, m.first.context, (m.parts.map Element.item).reverse⟩

end MissingRun

/-! ## Findings -/

/-- What a diagnostic is about. -/
inductive Finding where
  /-- unexpected text -/
  | unexpected (node : Node)
  /-- parts that are missing one behind the other -/
  | expected (run : MissingRun)
  /-- the missing colon of a ternary operator -/
  | ternaryColon (colon : Leaf)
  /-- a missing closing token, and the raw delimiter that is missing behind it -/
  | unclosed (closer : Leaf) (delimiter : Option Leaf)

namespace Finding

/-- The spelling of a closing token and of the raw delimiter behind it. -/
def closerText (closer : Leaf) (delimiter : Option Leaf) : Text :=
  closer.green.textTrimmed ++ (delimiter.map fun d => d.green.textTrimmed).getD []

/-- The diagnostic of a finding. -/
def diagnostic : Finding → Diagnostic
  | unexpected n => n.unexpectedDiagnostic
  | expected m =>
    .error (.expected (joinItems (m.parts.map Element.item)) m.first.context)
      (.empty m.first.offset)
  | ternaryColon l => .error .expectedTernaryColon (.empty l.offset)
  | unclosed l d =>
    .error (l.parent.unclosedCause (String.ofList (closerText l d))) (.empty l.offset)

/-- The unexpected node that a finding is about. -/
def unexpected? : Finding → Option Node
  | unexpected n => some n
  | _ => none

/-- The missing tokens and the placeholders that a finding accounts for. -/
def covers : Finding → List Element
  | unexpected _ => []
  | expected m => m.parts.flatMap Element.missing
  | ternaryColon l => [.leaf l]
  | unclosed l d => .leaf l :: d.toList.map .leaf

/-- The parts of a tree that a finding is about: the unexpected node, or what it accounts for. -/
def pieces : Finding → List Element
  | unexpected n => [.node n]
  | expected m => m.parts.flatMap Element.missing
  | ternaryColon l => [.leaf l]
  | unclosed l d => .leaf l :: d.toList.map .leaf

/-- Whether a finding is what its diagnostic says. The parts of a run are missing at one place of
the text and in one construct. A closing token is missing behind what it would close, and the
delimiter directly behind it. -/
def Fits : Finding → Prop
  | unexpected n => n.kind = .unexpected
  | expected m =>
    ∀ e ∈ m.parts, e.IsLacking ∧ e.context = m.first.context ∧ e.offset = m.first.offset
  | ternaryColon l => l.isPresent = false ∧ l.kind = .colon ∧ l.parent.kind = .ternaryExpr
  | unclosed l d =>
    l.isPresent = false ∧ l.parent.closesOpener l.index l.kind ∧
      ∀ q ∈ d, q.isPresent = false ∧ q.kind = .rawStringDelimiter ∧ q.parent = l.parent ∧
        q.index = l.index + 1

end Finding

/-- Whether a cause is about text that was read and does not belong there. -/
def Cause.isUnexpected : Cause → Bool
  | extraneousAtTopLevel _ | unexpectedText _ _ | unexpectedBeforeIfConfigClause _
  | unexpectedInIfConfigBlock _ | removedCStyleFor => true
  | expected _ _ | expectedToEnd _ _ | expectedTernaryColon => false

namespace Finding

/-- Whatever stands around unexpected text, it is reported as unexpected, and not as something that
is missing. -/
theorem isUnexpected_unexpectedCause (n above : Node) (text : String) :
    (n.unexpectedCause above text).isUnexpected := by
  unfold Node.unexpectedCause
  repeat' split
  all_goals rfl

/-- In all of its forms, the diagnostic of an unexpected node is about text that was read and does
not belong there. -/
theorem isUnexpected_unexpectedDiagnostic (n : Node) :
    n.unexpectedDiagnostic.cause.isUnexpected := by
  unfold Node.unexpectedDiagnostic
  dsimp only
  split
  · rfl
  · split
    · rfl
    · exact isUnexpected_unexpectedCause _ _ _

/-- A diagnostic is about unexpected text when its finding is. -/
theorem isUnexpected_diagnostic (f : Finding) :
    f.diagnostic.cause.isUnexpected = f.unexpected?.isSome := by
  cases f with
  | unexpected n => exact isUnexpected_unexpectedDiagnostic n
  | expected m => rfl
  | ternaryColon l => rfl
  | unclosed l d =>
    show (l.parent.unclosedCause _).isUnexpected = false
    unfold Node.unclosedCause
    split <;> rfl

/-- The diagnostics about unexpected text are those of the unexpected nodes. -/
theorem filter_isUnexpected (fs : List Finding) :
    (fs.map diagnostic).filter (fun d => d.cause.isUnexpected)
      = (fs.filterMap unexpected?).map Node.unexpectedDiagnostic := by
  induction fs with
  | nil => rfl
  | cons f fs ih =>
    rw [List.map_cons, List.filter_cons, isUnexpected_diagnostic, List.filterMap_cons, ih]
    cases f <;> rfl

end Finding

/-! ## Signals -/

/-- What a report takes notice of. -/
inductive Signal where
  /-- a token of the source -/
  | token
  /-- something that is reported by itself -/
  | found (finding : Finding)
  /-- a missing part that can be reported together with others -/
  | missed (part : Element)

/-- Notes a signal in a report. -/
def Report.note (r : Report) : Signal → Report
  | .token => r.flush
  | .found f => r.flush.add f.diagnostic
  | .missed e => r.push e.offset e.context e.item

namespace Node

/-- The raw delimiter that is missing at the front of parts of the node `n`. -/
def missingDelimiter (n : Node) (index offset : Nat) : List Green → Option Leaf
  | .leaf (.missing .rawStringDelimiter spelling) :: _ =>
    some ⟨n, index, offset, .missing .rawStringDelimiter spelling⟩
  | _ => none

mutual

/-- The signals of a node below the node `n`. -/
def signalsIn (n : Node) (index offset : Nat) : Green → List Signal
  | .leaf _ => []
  | .node kind children =>
    let below : Node := ⟨kind, children, offset, n.step index⟩
    if kind = .unexpected then [.found (.unexpected below)]
    else if below.missingItem?.isSome then [.missed (.node below)]
    else
      let inside := signalsFrom below 0 offset false children
      if below.green.hasPresent then .token :: inside else inside

/-- The signals of parts of the node `n`. When the part before was a closing token that is missing,
`quoted` says so. -/
def signalsFrom (n : Node) (index offset : Nat) (quoted : Bool) : List Green → List Signal
  | [] => []
  | .node kind children :: gs =>
    signalsIn n index offset (.node kind children)
      ++ signalsFrom n (index + 1) (offset + Green.byteLen (.node kind children)) false gs
  | .leaf (.present t) :: gs => .token :: signalsFrom n (index + 1) (offset + t.byteLen) false gs
  | .leaf (.missing kind spelling) :: gs =>
    let here : Leaf := ⟨n, index, offset, .missing kind spelling⟩
    if quoted && kind == .rawStringDelimiter then signalsFrom n (index + 1) offset false gs
    else if kind == .colon && n.kind == .ternaryExpr then
      .found (.ternaryColon here) :: signalsFrom n (index + 1) offset false gs
    else if n.closesOpener index kind then
      .found (.unclosed here (n.missingDelimiter (index + 1) offset gs))
        :: signalsFrom n (index + 1) offset true gs
    else .missed (.leaf here) :: signalsFrom n (index + 1) offset false gs

end

/-- The number signs that are missing behind a closing quote are those of the raw delimiter which is
the next of the parts, if it is missing, too. -/
theorem missingPounds_eq (n : Node) (index offset : Nat) (gs : List Green) :
    missingPounds gs
      = ((n.missingDelimiter index offset gs).map fun d => d.green.textTrimmed).getD [] := by
  unfold missingPounds
  split
  · rfl
  · rename_i hfront
    rw [missingDelimiter]
    · rfl
    · exact hfront

mutual

/-- A report notes the signals. -/
theorem reportIn_eq (n : Node) (index offset : Nat) (r : Report) : (g : Green) →
    n.reportIn unexpectedDiagnostic index offset r g =
    (n.signalsIn index offset g).foldl Report.note r
  | .leaf _ => by rw [reportIn, signalsIn, List.foldl_nil]
  | .node kind children => by
    rw [reportIn, signalsIn]
    by_cases hunexpected : kind = .unexpected
    · rw [if_pos hunexpected, if_pos hunexpected]
      rfl
    · rw [if_neg hunexpected, if_neg hunexpected]
      cases hitem : missingItem? ⟨kind, children, offset, n.step index⟩ with
      | some item =>
        show _ = Report.push _ _ _ (Option.getD (missingItem? _) "")
        rw [hitem]
        rfl
      | none =>
        simp only [Option.isSome_none, Bool.false_eq_true, if_false]
        rw [reportFrom_eq]
        split <;> rfl

/-- A report goes through several parts as it notes their signals, one after the other. With
`reportIn_eq`, this takes going through a tree apart from putting its findings together. -/
theorem reportFrom_eq (n : Node) (index offset : Nat) (quoted : Bool) (r : Report) :
    (gs : List Green) → n.reportFrom unexpectedDiagnostic index offset quoted r gs
      = (n.signalsFrom index offset quoted gs).foldl Report.note r
  | [] => by rw [reportFrom, signalsFrom, List.foldl_nil]
  | .node kind children :: gs => by
    rw [reportFrom, signalsFrom, List.foldl_append, ← reportIn_eq, reportFrom_eq]
  | .leaf (.present t) :: gs => by
    rw [reportFrom, signalsFrom, List.foldl_cons, reportFrom_eq]
    rfl
  | .leaf (.missing kind spelling) :: gs => by
    rw [reportFrom, signalsFrom]
    simp only [reportFrom_eq]
    rw [n.missingPounds_eq (index + 1) offset gs]
    split
    · rfl
    · split
      · rfl
      · split <;> rfl

end

end Node

/-! ## From signals to findings -/

namespace Signal

/-- The run that is still to be reported, as a finding. -/
def closing (pending : Option MissingRun) : List Finding := (pending.map Finding.expected).toList

/-- The findings of signals behind a run that is still to be reported. -/
def findings : Option MissingRun → List Signal → List Finding
  | pending, [] => closing pending
  | pending, .token :: ss => closing pending ++ findings none ss
  | pending, .found f :: ss => closing pending ++ f :: findings none ss
  | none, .missed e :: ss => findings (some ⟨e, []⟩) ss
  | some m, .missed e :: ss =>
    if m.first.context = e.context then findings (some (m.push e)) ss
    else .expected m :: findings (some ⟨e, []⟩) ss

end Signal

namespace Signal

/-! ## What findings keep of signals -/

/-- The unexpected node that a signal stands for. -/
def unexpected? : Signal → Option Node
  | found f => f.unexpected?
  | _ => none

/-- The parts of a tree that a signal is about. -/
def pieces : Signal → List Element
  | token => []
  | found f => f.pieces
  | missed e => e.missing

/-- What is said of findings and of missing parts, said of a signal. -/
def gather {α : Type} (φ : Finding → List α) (ψ : Element → List α) : Signal → List α
  | token => []
  | found f => φ f
  | missed e => ψ e

/-- What is said of findings is said of the signals that they are put together from, in their order,
as long as nothing more is said of a run than of its parts. -/
theorem flatMap_findings {α : Type} {φ : Finding → List α} {ψ : Element → List α}
    (h : ∀ m, φ (.expected m) = m.parts.flatMap ψ) (pending : Option MissingRun)
    (ss : List Signal) : (findings pending ss).flatMap φ
      = (closing pending).flatMap φ ++ ss.flatMap (gather φ ψ) := by
  induction ss generalizing pending with
  | nil => simp [findings]
  | cons s ss ih =>
    cases s with
    | token => simp [findings, ih, gather, closing]
    | found f => simp [findings, ih, gather, closing]
    | missed e =>
      cases pending with
      | none => simp [findings, ih, gather, closing, h, MissingRun.parts]
      | some m =>
        rw [findings]
        split
        · simp [ih, gather, closing, h]
        · simp [ih, gather, closing, h, MissingRun.parts]

/-- The findings are about what the signals are about. -/
theorem pieces_findings (pending : Option MissingRun) (ss : List Signal) :
    (findings pending ss).flatMap Finding.pieces
      = (closing pending).flatMap Finding.pieces ++ ss.flatMap pieces := by
  have hpieces : pieces = gather Finding.pieces Element.missing := by
    funext s
    cases s <;> rfl
  rw [hpieces]
  exact flatMap_findings (fun _ => rfl) pending ss

/-- The findings are about the unexpected nodes that the signals are about. -/
theorem unexpected?_findings (pending : Option MissingRun) (ss : List Signal) :
    (findings pending ss).filterMap Finding.unexpected? = ss.filterMap unexpected? := by
  have hclosing : (closing pending).flatMap (fun f => f.unexpected?.toList) = [] := by
    cases pending <;> rfl
  have hgather : (fun s => (unexpected? s).toList)
      = gather (fun f => f.unexpected?.toList) fun _ => [] := by
    funext s
    cases s <;> rfl
  have hruns (m : MissingRun) : (Finding.expected m).unexpected?.toList
      = m.parts.flatMap fun _ => ([] : List Node) :=
    (List.flatMap_eq_nil_iff.mpr fun _ _ => rfl).symm
  rw [List.filterMap_eq_flatMap_toList, List.filterMap_eq_flatMap_toList, hgather,
    flatMap_findings hruns, hclosing, List.nil_append]

/-- Signals that are given on the way from the position `start` to the position `stop`. What is
missing is missing where the way has come to; a finding lies behind `low`, and the way goes on
behind it. Only a token lets a finding be found before the position that the way has come to. -/
inductive Along : Nat → Nat → List Signal → Nat → Prop
  | nil {low pos : Nat} : Along low pos [] pos
  | token {low pos next stop : Nat} {ss : List Signal} :
    pos ≤ next → Along pos next ss stop → Along low pos (.token :: ss) stop
  | found {low pos next stop : Nat} {f : Finding} {ss : List Signal} :
    f.Fits → low ≤ f.diagnostic.offset → f.diagnostic.offset ≤ next → pos ≤ next →
      Along next next ss stop → Along low pos (.found f :: ss) stop
  | missed {low pos stop : Nat} {e : Element} {ss : List Signal} :
    e.IsLacking → e.offset = pos → Along pos pos ss stop → Along low pos (.missed e :: ss) stop

namespace Along

/-- Less can be said of signals that are given behind an earlier position. -/
theorem weaken {low low' pos stop : Nat} {ss : List Signal} (h : Along low pos ss stop)
    (hlow : low' ≤ low) : Along low' pos ss stop := by
  cases h with
  | nil => exact .nil
  | token hnext h => exact .token hnext h
  | found hfits hf hnext hpos h => exact .found hfits (Nat.le_trans hlow hf) hnext hpos h
  | missed he hpos h => exact .missed he hpos h

/-- Signals along one part of a way, and those along the part behind it, are signals along the
way. -/
theorem append {low pos mid stop : Nat} {ss us : List Signal} (h : Along low pos ss mid)
    (hlow : low ≤ pos) (hus : Along mid mid us stop) : Along low pos (ss ++ us) stop := by
  induction h with
  | nil => exact hus.weaken hlow
  | token hnext _ ih => exact .token hnext (ih hnext hus)
  | found hfits hf hnext hpos _ ih => exact .found hfits hf hnext hpos (ih (Nat.le_refl _) hus)
  | missed he hpos _ ih => exact .missed he hpos (ih (Nat.le_refl _) hus)

end Along

/-- Whether a run can be held back at a position. -/
def Held (pos : Nat) (m : MissingRun) : Prop := (Finding.expected m).Fits ∧ m.first.offset = pos

/-- A part that is missing at a position can be held back there on its own. -/
theorem held_single {e : Element} {pos : Nat} (he : e.IsLacking) (hpos : e.offset = pos) :
    Held pos ⟨e, []⟩ := by
  refine ⟨?_, hpos⟩
  intro x hx
  obtain rfl : x = e := List.mem_singleton.mp hx
  exact ⟨he, rfl, rfl⟩

/-- A run that is held back can be added to at the same position, by a part that is missing in the
same construct. -/
theorem held_push {m : MissingRun} {e : Element} {pos : Nat} (hm : Held pos m) (he : e.IsLacking)
    (hcontext : m.first.context = e.context) (hpos : e.offset = pos) : Held pos (m.push e) := by
  refine ⟨?_, hm.2⟩
  intro x hx
  rw [MissingRun.parts_push, List.mem_append, List.mem_singleton] at hx
  rcases hx with hx | rfl
  · exact hm.1 x hx
  · exact ⟨he, hcontext.symm, hpos.trans hm.2.symm⟩

/-- Findings that are what their diagnostics say, in source order, from a position on. -/
def Ordered (low : Nat) (fs : List Finding) : Prop :=
  (∀ f ∈ fs, f.Fits ∧ low ≤ f.diagnostic.offset) ∧
    fs.Pairwise fun f g => f.diagnostic.offset ≤ g.diagnostic.offset

/-- Findings in source order go on in front with a finding that is reported no later than they
are. -/
theorem ordered_cons {low next : Nat} {f : Finding} {fs : List Finding} (hfits : f.Fits)
    (hlow : low ≤ f.diagnostic.offset) (hnext : f.diagnostic.offset ≤ next)
    (hfs : Ordered next fs) : Ordered low (f :: fs) := by
  refine ⟨?_, List.pairwise_cons.mpr ⟨?_, hfs.2⟩⟩
  · rintro g (_ | ⟨_, hg⟩)
    · exact ⟨hfits, hlow⟩
    · exact ⟨(hfs.1 g hg).1, Nat.le_trans hlow (Nat.le_trans hnext (hfs.1 g hg).2)⟩
  · exact fun g hg => Nat.le_trans hnext (hfs.1 g hg).2

theorem Ordered.weaken {low low' : Nat} {fs : List Finding} (h : Ordered low fs)
    (hlow : low' ≤ low) : Ordered low' fs :=
  ⟨fun f hf => ⟨(h.1 f hf).1, Nat.le_trans hlow (h.1 f hf).2⟩, h.2⟩

/-- Nothing is held back. -/
theorem held_none {low pos : Nat} :
    ∀ m ∈ (none : Option MissingRun), Held low m ∧ low = pos :=
  fun m hm => absurd hm (Option.not_mem_none m)

theorem held_some {pos : Nat} {m : MissingRun} (h : Held pos m) :
    ∀ m' ∈ some m, Held pos m' ∧ pos = pos := by
  intro m' hm'
  rw [Option.mem_some] at hm'
  rw [← hm']
  exact ⟨h, rfl⟩

/-- A run that is held back is reported before what comes behind it. -/
theorem ordered_closing {low pos : Nat} {pending : Option MissingRun} {fs : List Finding}
    (hpending : ∀ m ∈ pending, Held low m ∧ low = pos) (hfs : Ordered low fs) :
    Ordered low (closing pending ++ fs) := by
  cases pending with
  | none => exact hfs
  | some m =>
    obtain ⟨⟨hfits, hm⟩, -⟩ := hpending m rfl
    exact ordered_cons hfits (Nat.le_of_eq hm.symm) (Nat.le_of_eq hm) hfs

/-- The findings of signals along a way are in source order. -/
theorem Along.ordered {low pos stop : Nat} {ss : List Signal} (h : Along low pos ss stop)
    {pending : Option MissingRun} (hlow : low ≤ pos)
    (hpending : ∀ m ∈ pending, Held low m ∧ low = pos) : Ordered low (findings pending ss) := by
  induction h generalizing pending with
  | nil =>
    rw [findings, ← List.append_nil (closing pending)]
    exact ordered_closing hpending ⟨by simp, .nil⟩
  | token hnext _ ih =>
    rw [findings]
    exact ordered_closing hpending ((ih hnext held_none).weaken hlow)
  | found hfits hf hnext hpos _ ih =>
    rw [findings]
    exact ordered_closing hpending (ordered_cons hfits hf hnext (ih (Nat.le_refl _) held_none))
  | missed he hpos _ ih =>
    -- what is missing here starts a run of its own, unless one in the same construct is pending
    have hsingle := ih (Nat.le_refl _) (held_some (held_single he hpos))
    cases pending with
    | none =>
      rw [findings]
      exact hsingle.weaken hlow
    | some m =>
      obtain ⟨hm, rfl⟩ := hpending m rfl
      rw [findings]
      split
      · rename_i hcontext
        exact ih (Nat.le_refl _) (held_some (held_push hm he hcontext hpos))
      · exact ordered_cons hm.1 (Nat.le_of_eq hm.2.symm) (Nat.le_of_eq hm.2) hsingle

end Signal

namespace Report

/-- Whether a report holds back a run, or nothing. -/
def Holds (r : Report) (pending : Option MissingRun) : Prop :=
  r.pending = pending.map MissingRun.group

theorem holds_flush (r : Report) : r.flush.Holds none := by
  unfold flush
  split
  · assumption
  · rfl

/-- Holding nothing back adds the run that was held back. -/
theorem found_flush {r : Report} {pending : Option MissingRun} (h : r.Holds pending) :
    r.flush.found.reverse
      = r.found.reverse ++ (Signal.closing pending).map Finding.diagnostic := by
  unfold Holds at h
  cases pending with
  | none => simp [flush, h, Signal.closing]
  | some m =>
    simp [flush, h, Signal.closing, addAt, add, MissingRun.group, Finding.diagnostic]

/-- Where nothing is held back, a missing part starts a run. -/
theorem note_missed_none {r : Report} (h : r.Holds none) (e : Element) :
    r.note (.missed e) = { r with pending := some (MissingRun.mk e []).group } := by
  unfold Holds at h
  simp [note, push, h, MissingRun.group, MissingRun.parts]

/-- A part that is missing in the construct of the run that is held back joins the run. -/
theorem note_missed_same {r : Report} {m : MissingRun} (h : r.Holds (some m)) {e : Element}
    (hc : m.first.context = e.context) :
    r.note (.missed e) = { r with pending := some (m.push e).group } := by
  unfold Holds at h
  simp [note, push, h, MissingRun.group, hc]
  simp [MissingRun.push, hc]

/-- A part that is missing in another construct ends the run that is held back, and starts one of
its own. -/
theorem note_missed_other {r : Report} {m : MissingRun} (h : r.Holds (some m)) {e : Element}
    (hc : m.first.context ≠ e.context) :
    r.note (.missed e) = { r.flush with pending := some (MissingRun.mk e []).group } := by
  unfold Holds at h
  simp [note, push, h, MissingRun.group, MissingRun.parts, hc]

/-- What signals add to a report: the diagnostics of their findings. -/
theorem found_note (ss : List Signal) (r : Report) (pending : Option MissingRun)
    (h : r.Holds pending) :
    (ss.foldl note r).flush.found.reverse
      = r.found.reverse ++ (Signal.findings pending ss).map Finding.diagnostic := by
  -- by induction on the signals; the group that a report holds is the run that is pending
  induction ss generalizing r pending with
  | nil =>
    rw [List.foldl_nil, found_flush h]
    rfl
  | cons s ss ih =>
    rw [List.foldl_cons]
    cases s with
    | token =>
      rw [Signal.findings, List.map_append, ← List.append_assoc, ← found_flush h]
      exact ih r.flush none r.holds_flush
    | found f =>
      have hadd := ih (r.flush.add f.diagnostic) none r.holds_flush
      rw [Signal.findings, List.map_append, ← List.append_assoc, ← found_flush h]
      simpa [note, add] using hadd
    | missed e =>
      cases pending with
      | none =>
        rw [note_missed_none h]
        exact ih _ (some ⟨e, []⟩) rfl
      | some m =>
        rw [Signal.findings]
        by_cases hc : m.first.context = e.context
        · rw [note_missed_same h hc, if_pos hc]
          exact ih _ (some (m.push e)) rfl
        · have hrest := ih { r.flush with pending := some (MissingRun.mk e []).group }
            (some ⟨e, []⟩) rfl
          rw [note_missed_other h hc, if_neg hc, hrest, found_flush h, List.append_assoc]
          rfl

end Report

end SwiftTree
