import SwiftTree.Proofs.Positions
import SwiftTree.Proofs.SourceOrder
import SwiftTree.Proofs.Unclosed

/-!
# Diagnostics are located exactly

What is missing has no place of its own. A tree puts it behind the last token before it in the
listing (`Element.Follow`), so everything that is reported together is missing at one position, and
the diagnostic is located there. Unexpected text is located at its tokens, without the trivia around
them, and its diagnostic quotes the source there. Both rest on every part of a tree standing in the
text (`Entry.cuts_places`). So no range leaves the text or divides a character.
-/

namespace SwiftTree

namespace Element

/-! ## Where the last token ends -/

/-- Where the last token of the source among parts ends, its trivia included; a given position if
there is none. -/
def reach (pos : Nat) (es : List Element) : Nat :=
  (((es.filterMap leaf?).filter Leaf.isPresent).getLast?.map fun l => l.range.stop).getD pos

/-- The last token of some parts and others is the last one of the others, if there is one. -/
theorem reach_append (pos : Nat) (es fs : List Element) :
    reach pos (es ++ fs) = reach (reach pos es) fs := by
  unfold reach
  rw [List.filterMap_append, List.filter_append, List.getLast?_append]
  cases ((fs.filterMap leaf?).filter Leaf.isPresent).getLast? <;> rfl

theorem reach_cons (pos : Nat) (e : Element) (es : List Element) :
    reach pos (e :: es) = reach (reach pos [e]) es := reach_append pos [e] es

/-- Whether every part starts where the last token before it ends, the first ones at a given
position. -/
def Follow (pos : Nat) : List Element → Prop
  | [] => True
  | e :: es => e.offset = pos ∧ Follow (reach pos [e]) es

/-- Parts in front of others follow, and the others follow from where these end. -/
theorem follow_append {pos : Nat} {es fs : List Element} :
    Follow pos (es ++ fs) ↔ Follow pos es ∧ Follow (reach pos es) fs := by
  induction es generalizing pos with
  | nil => exact (true_and _).symm.to_iff
  | cons e es ih => rw [List.cons_append, Follow, Follow, ih, reach_cons pos e es, and_assoc]

theorem Follow.offset_eq {pos : Nat} {front back : List Element} {e : Element}
    (h : Follow pos (front ++ e :: back)) : e.offset = reach pos front :=
  (follow_append.mp h).2.1

end Element

namespace Node

mutual

/-- A part is listed with every place behind the last token before it. -/
theorem follow_listingIn (n : Node) (depth index offset : Nat) : (g : Green) →
    Element.Follow offset ((n.listingIn depth index offset g).map Prod.snd) ∧
      Element.reach offset ((n.listingIn depth index offset g).map Prod.snd) = offset + g.byteLen
  | .node kind cs => by
    obtain ⟨hfollow, hreach⟩ :=
      follow_listingFrom ⟨kind, cs, offset, n.step index⟩ (depth + 1) 0 offset cs
    rw [listingIn, List.map_cons]
    exact ⟨⟨rfl, hfollow⟩, (Element.reach_cons offset _ _).trans hreach⟩
  | .leaf (.present _) => ⟨⟨rfl, trivial⟩, rfl⟩
  | .leaf (.missing _ _) => ⟨⟨rfl, trivial⟩, rfl⟩

/-- The parts of a listing follow each other, and the last token among them ends where the trees
end. -/
theorem follow_listingFrom (n : Node) (depth index offset : Nat) : (gs : List Green) →
    Element.Follow offset ((n.listingFrom depth index offset gs).map Prod.snd) ∧
      Element.reach offset ((n.listingFrom depth index offset gs).map Prod.snd)
        = offset + Green.byteLenOf gs
  | [] => ⟨trivial, rfl⟩
  | g :: gs => by
    obtain ⟨hg, hreach⟩ := follow_listingIn n depth index offset g
    obtain ⟨hgs, hreaches⟩ := follow_listingFrom n depth (index + 1) (offset + g.byteLen) gs
    rw [listingFrom, List.map_append, Element.follow_append, Element.reach_append, hreach, hreaches,
      Green.byteLenOf, Nat.add_assoc]
    exact ⟨⟨hg, hgs⟩, rfl⟩

end

/-- The places of a node follow each other, from where the node starts. -/
theorem follow_places (n : Node) : Element.Follow n.offset n.places := by
  rw [places, listing, List.map_cons]
  exact ⟨rfl, (n.follow_listingFrom 1 0 n.offset n.children).1⟩

end Node

/-! ## Every part stands in the text -/

namespace Entry

variable {e : Entry} {text : Text} {part : Element} {n : Node}

/-- The tokens of a text have fitting trivia. -/
theorem isAligned_tree (e : Entry) (text : Text) : (e.tree text).IsAligned := by
  obtain ⟨pieces, -, htokens⟩ := e.exists_pieces text
  intro t ht
  have hmem : t ∈ Green.tokensOf [e.tree text] :=
    List.mem_filterMap.mpr ⟨_, List.mem_append_left _ ht, rfl⟩
  rw [htokens] at hmem
  obtain ⟨token, -, rfl⟩ := List.mem_map.mp hmem
  exact token.isAligned_outline

/-- Every part of a tree of a text starts and ends between characters. -/
theorem isAligned_places (hpart : part ∈ (Node.ofGreen (e.tree text)).places) :
    part.green.IsAligned :=
  (Node.mem_places_iff.mp hpart).isAligned fun t ht =>
    e.isAligned_tree text t (Node.leaves_ofGreen _ ▸ ht)

/-- Everything that is listed stands in the text at its range: nodes with their text, tokens with
their trivia, and what is missing with nothing, between two characters. -/
theorem cuts_places (hpart : part ∈ (Node.ofGreen (e.tree text)).places) :
    part.range.Cuts part.green.text text := by
  have hcuts := (Node.mem_places_iff.mp hpart).cuts (Node.offset_ofGreen _)
  rwa [Node.text_ofGreen, e.text_tree] at hcuts

/-- A node without the trivia at its ends is a slice of the text, and `textTrimmed` is what stands
there. -/
theorem cuts_trimmedRange (hn : n ∈ (Node.ofGreen (e.tree text)).descendants) :
    n.trimmedRange.Cuts n.textTrimmed text :=
  (Node.cuts_trimmedRange (isAligned_places (Node.node_mem_places hn))
    (cuts_places (Node.node_mem_places hn))).1

/-- What is missing is missing between two characters. -/
theorem isWithin_offset (hpart : part ∈ (Node.ofGreen (e.tree text)).places) :
    (Span.empty part.offset).IsWithin text := by
  have hstart : part.offset = part.range.start := by cases part <;> rfl
  rw [hstart]
  exact (cuts_places hpart).empty.isWithin

/-- The range from the first token of a node to its end, with the trivia there. -/
theorem isWithin_toStop (hn : n ∈ (Node.ofGreen (e.tree text)).descendants) :
    (Span.mk n.trimmedRange.start n.range.stop).IsWithin text := by
  obtain ⟨lead, inner, trail, htext, hrange⟩ :=
    Node.exists_trimmed (isAligned_places (Node.node_mem_places hn))
  have hcuts : n.range.Cuts n.text text := cuts_places (Node.node_mem_places hn)
  have hinner : n.text = lead ++ ((inner ++ trail) ++ []) := by rw [htext, List.append_nil]
  have hstop : n.range.stop
      = n.range.start + Text.byteLen lead + Text.byteLen (inner ++ trail) := by
    show n.offset + n.green.byteLen = n.offset + _ + _
    rw [← Green.byteLen_text, Nat.add_assoc, ← Text.byteLen_append, ← htext]
    rfl
  rw [hrange, hstop]
  exact (hcuts.inner hinner).isWithin

/-- The trimmed range of a token below a node. -/
theorem isWithin_token (hn : n ∈ (Node.ofGreen (e.tree text)).descendants) {l : Leaf}
    (hl : l ∈ n.presentLeaves) : l.trimmedRange.IsWithin text := by
  obtain ⟨hmem, hpresent⟩ := List.mem_filter.mp hl
  have hleaf : .leaf l ∈ (Node.ofGreen (e.tree text)).places :=
    Node.mem_places_iff.mpr
      ((Node.mem_descendants_iff.mp hn).trans (Node.mem_leaves_iff.mp hmem))
  have haligned := isAligned_places hleaf
  have hcuts : l.range.Cuts l.green.source text := cuts_places hleaf
  cases hgreen : l.green with
  | present t =>
    refine (Leaf.cuts_trimmedRange hgreen (haligned t ?_) hcuts).isWithin
    rw [Element.green, hgreen]
    exact List.mem_cons_self
  | missing kind spelling =>
    rw [Leaf.isPresent, hgreen] at hpresent
    cases hpresent

end Entry

/-! ## What diagnostics are about is listed -/

namespace Finding

/-- The parts of a tree that a finding says are missing. -/
def parts : Finding → List Element
  | unexpected _ => []
  | expected m => m.parts
  | ternaryColon l => [.leaf l]
  | unclosed l d => .leaf l :: d.toList.map .leaf

end Finding

/-- The parts of a tree that a signal says are missing. -/
def Signal.parts : Signal → List Element := gather Finding.parts fun e => [e]

namespace Node

/-- The delimiter that is missing with a quote is listed with the parts it stands among. -/
theorem missingDelimiter_mem_listingFrom {n : Node} {depth index offset : Nat} {gs : List Green}
    {d : Leaf} (hd : d ∈ n.missingDelimiter index offset gs) :
    .leaf d ∈ (n.listingFrom depth index offset gs).map Prod.snd := by
  unfold missingDelimiter at hd
  split at hd
  · rw [← Option.some.inj hd]
    exact List.mem_cons_self
  · cases hd

/-- Nothing stands between a missing quote and the delimiter missing behind it. -/
theorem offset_of_mem_missingDelimiter {n : Node} {index offset : Nat} {gs : List Green} {d : Leaf}
    (hd : d ∈ n.missingDelimiter index offset gs) : d.offset = offset := by
  unfold missingDelimiter at hd
  split at hd
  · rw [← Option.some.inj hd]
  · cases hd

mutual

/-- Signals are about parts that are listed. -/
theorem parts_signalsIn_subset (n : Node) (depth index offset : Nat) : (g : Green) →
    (n.signalsIn index offset g).flatMap Signal.parts
      ⊆ (n.listingIn depth index offset g).map Prod.snd
  | .leaf _ => List.nil_subset _
  | .node kind cs => by
    have hinside := parts_signalsFrom_subset ⟨kind, cs, offset, n.step index⟩ (depth + 1) 0 offset
      false cs
    rw [signalsIn, listingIn, List.map_cons]
    split
    · exact List.nil_subset _
    · split
      · exact List.cons_subset_cons _ (List.nil_subset _)
      · dsimp only
        split
        · exact List.subset_cons_of_subset _ hinside
        · exact List.subset_cons_of_subset _ hinside

/-- Signals are only about parts that are listed. -/
theorem parts_signalsFrom_subset (n : Node) (depth index offset : Nat) (quoted : Bool) :
    (gs : List Green) → (n.signalsFrom index offset quoted gs).flatMap Signal.parts
      ⊆ (n.listingFrom depth index offset gs).map Prod.snd
  | [] => by
    rw [signalsFrom]
    exact List.nil_subset _
  | .node kind cs :: gs => by
    rw [signalsFrom, listingFrom, List.flatMap_append, List.map_append]
    exact List.append_subset.mpr
      ⟨List.subset_append_of_subset_left _ (parts_signalsIn_subset n depth index offset _),
        List.subset_append_of_subset_right _ (parts_signalsFrom_subset n depth _ _ false gs)⟩
  | .leaf (.present t) :: gs => by
    rw [signalsFrom]
    exact List.subset_cons_of_subset _ (parts_signalsFrom_subset n depth (index + 1) _ false gs)
  | .leaf (.missing kind spelling) :: gs => by
    have hrest (quoted : Bool) := parts_signalsFrom_subset n depth (index + 1) offset quoted gs
    have hlisting : (n.listingFrom depth index offset (.leaf (.missing kind spelling) :: gs)).map
        Prod.snd = .leaf ⟨n, index, offset, .missing kind spelling⟩
          :: (n.listingFrom depth (index + 1) offset gs).map Prod.snd := rfl
    rw [hlisting, signalsFrom]
    split
    · exact List.subset_cons_of_subset _ (hrest false)
    · split
      · exact List.cons_subset_cons _ (hrest false)
      · split
        · refine List.cons_subset_cons _ (List.append_subset.mpr ⟨?_, hrest true⟩)
          intro e he
          obtain ⟨d, hd, rfl⟩ := List.mem_map.mp he
          exact missingDelimiter_mem_listingFrom (Option.mem_toList.mp hd)
        · exact List.cons_subset_cons _ (hrest false)

end

/-- The findings of a tree are about parts that are listed. -/
theorem parts_mem_places {n : Node} {f : Finding} (hf : f ∈ n.findings) {part : Element}
    (hpart : part ∈ f.parts) : part ∈ n.places := by
  have hmem : part ∈ n.findings.flatMap Finding.parts := List.mem_flatMap.mpr ⟨f, hf, hpart⟩
  have hruns (m : MissingRun) : Finding.parts (.expected m) = m.parts.flatMap fun e => [e] :=
    (List.flatMap_singleton' _).symm
  rw [findings, Signal.flatMap_findings hruns] at hmem
  rw [places, listing, List.map_cons]
  exact List.mem_cons_of_mem _ (parts_signalsFrom_subset n 1 0 n.offset false n.children hmem)

end Node

/-! ## Where diagnostics are located -/

/-- The source that a cause quotes. -/
def Cause.source? : Cause → Option String
  | extraneousAtTopLevel text | unexpectedText text _ | unexpectedBeforeIfConfigClause text
  | unexpectedInIfConfigBlock text => some text
  | expected _ _ | expectedToEnd _ _ | expectedTernaryColon | removedCStyleFor => none

namespace Finding

variable {f : Finding} {part : Element}

/-- A finding that is not about unexpected text is about a part, at least. -/
theorem parts_ne_nil (hf : f.unexpected? = none) : f.parts ≠ [] := by
  cases f with
  | unexpected n => cases hf
  | _ => exact List.cons_ne_nil _ _

/-- What a finding says is missing lacks its text. -/
theorem isLacking_of_mem_parts (hfits : f.Fits) (hpart : part ∈ f.parts) : part.IsLacking := by
  cases f with
  | unexpected n => cases hpart
  | expected m => exact (hfits part hpart).1
  | ternaryColon l =>
    obtain rfl := List.mem_singleton.mp hpart
    exact hfits.1
  | unclosed l d =>
    rcases List.mem_cons.mp hpart with rfl | hpart
    · exact hfits.1
    · obtain ⟨q, hq, rfl⟩ := List.mem_map.mp hpart
      exact (hfits.2.2 q (Option.mem_toList.mp hq)).1

/-- What is reported together as expected is missing in one construct. -/
theorem context_of_mem_parts (hfits : f.Fits) (hpart : part ∈ f.parts) {items : String}
    {context : Option String} (hcause : f.diagnostic.cause = .expected items context) :
    part.context = context := by
  cases f with
  | unexpected n => cases hpart
  | expected m => exact (hfits part hpart).2.1.trans (Cause.expected.inj hcause).2
  | ternaryColon l => cases hcause
  | unclosed l d =>
    have hcontext : l.parent.context = context := by
      simp only [diagnostic, Diagnostic.error, Node.unclosedCause] at hcause
      split at hcause
      · cases hcause
      · rename_i hnone
        exact hnone.trans (Cause.expected.inj hcause).2
    rcases List.mem_cons.mp hpart with rfl | hpart
    · exact hcontext
    · obtain ⟨q, hq, rfl⟩ := List.mem_map.mp hpart
      rw [Element.context, (hfits.2.2 q (Option.mem_toList.mp hq)).2.2.1]
      exact hcontext

/-- What is missing is reported where it is missing. -/
theorem range_eq_of_mem_parts (hfits : f.Fits) (hset : f.SetsApart) (hpart : part ∈ f.parts) :
    f.diagnostic.range = .empty part.offset := by
  cases f with
  | unexpected n => cases hpart
  | expected m => exact congrArg Span.empty (hfits part hpart).2.2.symm
  | ternaryColon l =>
    obtain rfl := List.mem_singleton.mp hpart
    rfl
  | unclosed l d =>
    rcases List.mem_cons.mp hpart with rfl | hpart
    · rfl
    · obtain ⟨q, hq, rfl⟩ := List.mem_map.mp hpart
      obtain ⟨gs, -, hd⟩ := hset.behind
      rw [Option.mem_toList, hd] at hq
      exact congrArg Span.empty (Node.offset_of_mem_missingDelimiter hq).symm

/-- Only unexpected text is highlighted. -/
theorem highlight_eq_none (hf : f.unexpected? = none) : f.diagnostic.highlight = none := by
  cases f with
  | unexpected n => cases hf
  | _ => rfl

end Finding

namespace Node

variable {above n : Node}

/-- The cause of unexpected text quotes it, whatever else it says. -/
theorem source?_unexpectedCause (n above : Node) (text : String) :
    (n.unexpectedCause above text).source? = some text := by
  unfold unexpectedCause
  split_ifs <;> rfl

end Node

namespace Entry

variable {e : Entry} {text : Text} {n : Node}

/-- Unexpected text of a text's tree stands below a node of that tree. -/
theorem exists_standsBelow (hn : .unexpected n ∈ (Node.ofGreen (e.tree text)).findings) :
    n ∈ (Node.ofGreen (e.tree text)).descendants ∧
      ∃ above ∈ (Node.ofGreen (e.tree text)).descendants, above.StandsBelow n := by
  have hroot : (Node.ofGreen (e.tree text)).kind ≠ .unexpected := by
    rw [e.kind_root]
    cases e <;> exact nofun
  have hmem := Node.mem_nodesFrom_of_finding hroot (e.regular_tree text) hn
  exact ⟨List.mem_cons_of_mem _ hmem, Node.exists_standsBelow hmem⟩

/-- Unexpected text that is quoted is quoted as it stands in the source, without the trivia around
it. -/
theorem unexpected_located (hn : .unexpected n ∈ (Node.ofGreen (e.tree text)).findings)
    (hcause : n.unexpectedDiagnostic.cause ≠ .removedCStyleFor) :
    n.unexpectedDiagnostic.range = n.trimmedRange ∧
      ∃ source, text.slice? n.trimmedRange.start n.trimmedRange.stop = some source ∧
        n.unexpectedDiagnostic.cause.source? = some (String.ofList source) := by
  obtain ⟨hmem, above, -, hbelow⟩ := exists_standsBelow hn
  have hplain : ¬n.isCStyleClauses := fun hclauses =>
    hcause (Node.cause_of_isCStyleClauses hbelow hclauses).1
  rw [Node.unexpectedDiagnostic_eq hbelow hplain]
  exact ⟨rfl, n.textTrimmed, (cuts_trimmedRange hmem).slice?, n.source?_unexpectedCause above _⟩

/-- Where unexpected text is reported, and what belongs to it, is within the text. -/
theorem unexpected_isWithin (hn : .unexpected n ∈ (Node.ofGreen (e.tree text)).findings) :
    n.unexpectedDiagnostic.range.IsWithin text ∧
      ∀ s ∈ n.unexpectedDiagnostic.highlight, s.IsWithin text := by
  obtain ⟨hmem, above, habove, hbelow⟩ := exists_standsBelow hn
  by_cases hclauses : n.isCStyleClauses
  · obtain ⟨-, word, hfirst, hpresent, -, hrange, -⟩ :=
      Node.exists_word_of_isCStyleClauses hbelow (proper_of_mem_descendants habove) hclauses
    have hword : word ∈ above.presentLeaves :=
      List.mem_filter.mpr ⟨List.mem_of_mem_head? hfirst, hpresent⟩
    rw [hrange, (Node.cause_of_isCStyleClauses hbelow hclauses).2]
    refine ⟨isWithin_token habove hword, ?_⟩
    rintro _ ⟨⟩
    exact isWithin_toStop hmem
  · rw [Node.unexpectedDiagnostic_eq hbelow hclauses]
    exact ⟨(cuts_trimmedRange hmem).isWithin, nofun⟩

end Entry

/-- **Diagnostics are located exactly.** The diagnostics are those of findings, which are about
everything that is wrong with the tree. A diagnostic that is not about unexpected text is about
parts that are missing: each of them is listed, the range is empty and lies where the last token of
the source that is listed before it ends, trivia included, and at the start of the text if there is
none; and what is reported together as expected is missing in one construct. A diagnostic about
unexpected text is about an unexpected node; unless that holds the clauses of a C-style loop, the
range is the trimmed range of the node, and the text that is quoted is the source at this range. No
range and no highlight leaves the text or divides a character. -/
theorem Parse.diagnostics_located (e : Entry) (text : Text) :
    let p := Parse.ofText e text
    (∃ findings : List Finding,
      p.diagnostics = findings.map Finding.diagnostic ∧ (∀ f ∈ findings, f.Fits) ∧
      findings.flatMap Finding.pieces = p.root.places.filter Element.isFault ∧
      (∀ f ∈ findings, f.diagnostic.cause.isUnexpected = false →
        f.parts ≠ [] ∧ ∀ part ∈ f.parts, part ∈ p.root.places ∧ part.IsLacking ∧
          (∀ front back, p.root.places = front ++ part :: back →
            f.diagnostic.range = .empty (Element.reach 0 front)) ∧
          ∀ items context, f.diagnostic.cause = .expected items context → part.context = context) ∧
      ∀ f ∈ findings, f.diagnostic.cause.isUnexpected →
        ∃ n ∈ p.root.descendants, f = .unexpected n ∧ n.kind = .unexpected ∧
          (f.diagnostic.cause ≠ .removedCStyleFor → f.diagnostic.range = n.trimmedRange ∧
            ∃ source, text.slice? n.trimmedRange.start n.trimmedRange.stop = some source ∧
              f.diagnostic.cause.source? = some (String.ofList source))) ∧
    ∀ d ∈ p.diagnostics, d.range.IsWithin text ∧ ∀ s ∈ d.highlight, s.IsWithin text := by
  intro p
  have hn : Green.RegularAll p.root.children := e.regular_tree text
  have hdiagnostics : p.diagnostics = p.root.findings.map Finding.diagnostic :=
    e.diagnostics_eq text
  have hfits : ∀ f ∈ p.root.findings, f.Fits := fun f hf => ((Node.ordered_findings hn).1 f hf).1
  have hproper : p.root.green.Proper := Entry.proper_of_mem_descendants List.mem_cons_self
  have hset := Node.setsApart_findings hproper hn
  have hmissing {f : Finding} (hf : f.diagnostic.cause.isUnexpected = false) :
      f.unexpected? = none := by
    rwa [f.isUnexpected_diagnostic, Option.isSome_eq_false_iff, Option.isNone_iff_eq_none] at hf
  refine ⟨⟨p.root.findings, hdiagnostics, hfits, e.pieces_findings text, ?_, ?_⟩, ?_⟩
  · intro f hf hcause
    refine ⟨Finding.parts_ne_nil (hmissing hcause),
      fun part hpart => ⟨Node.parts_mem_places hf hpart,
      Finding.isLacking_of_mem_parts (hfits f hf) hpart, fun front back hplaces => ?_,
      fun _ _ => Finding.context_of_mem_parts (hfits f hf) hpart⟩⟩
    -- what is missing stands where the places before it end
    have hfollow : Element.Follow p.root.offset p.root.places := p.root.follow_places
    rw [hplaces] at hfollow
    rw [Finding.range_eq_of_mem_parts (hfits f hf) (hset f hf) hpart, hfollow.offset_eq]
    exact congrArg (fun pos => Span.empty (Element.reach pos front)) (Node.offset_ofGreen p.tree)
  · intro f hf hcause
    cases f with
    | unexpected n =>
      exact ⟨n, (Entry.exists_standsBelow hf).1, rfl, hfits _ hf, Entry.unexpected_located hf⟩
    | _ =>
      rw [Finding.isUnexpected_diagnostic] at hcause
      cases hcause
  · intro d hd
    rw [hdiagnostics] at hd
    obtain ⟨f, hf, rfl⟩ := List.mem_map.mp hd
    -- an unexpected node covers some of the text, and a missing part stands at a place of it
    cases hunexpected : f.unexpected? with
    | some n =>
      cases f with
      | unexpected n => exact Entry.unexpected_isWithin hf
      | _ => cases hunexpected
    | none =>
      obtain ⟨part, hpart⟩ := List.exists_mem_of_ne_nil _ (Finding.parts_ne_nil hunexpected)
      rw [Finding.range_eq_of_mem_parts (hfits f hf) (hset f hf) hpart,
        Finding.highlight_eq_none hunexpected]
      exact ⟨Entry.isWithin_offset (Node.parts_mem_places hf hpart), nofun⟩

end SwiftTree
