import SwiftTree.Proofs.Alongside
import SwiftTree.Proofs.CaseStatements
import SwiftTree.Proofs.ConditionalCases
import SwiftTree.Proofs.SingleStatements

/-!
# Conditional compilation in a case, as text

A block from `#if` to `#endif` is written into a case of a `switch`. Its tokens stay what they were
(`Token.exists_stream_inCase`), if the block does not hide its own end in a comment or a literal; so
the grammar sees the same tokens with a header before and a closing brace behind, and accepts the
block in the case if it accepts it as a file (`Parse.conditional_accepted`).

The block is not accepted if `case` or `default` stands in it outside of braces, whatever it means
there (`Parse.conditional_pattern_rejected`).
-/

namespace SwiftTree

open Grammar Token

namespace Token

/-- Whether tokens are read one after the other, behind the token `prev`, from a text that consists
of them and of `rest`. -/
inductive AreNext (rest : Text) : Option Token → List Token → Prop where
  | nil {prev : Option Token} : AreNext rest prev []
  | cons {prev : Option Token} {t : Token} {ts : List Token} :
      IsNext prev t (fullText ts ++ rest) → AreNext rest (some t) ts → AreNext rest prev (t :: ts)

end Token

namespace Tokenizer

variable {s : Tokenizer}

/-- Tokens that are read one after the other are made first. -/
theorem run_of_areNext {ts : List Token} {prev : Option Token} {rest : Text}
    (h : AreNext rest prev ts)
    (hmodes : s.modes = []) (hleading : s.leading = []) (hrest : s.rest = fullText ts ++ rest)
    (hprev : s.tokens.head? = prev) :
    s.run = { s with rest, tokens := ts.reverse ++ s.tokens }.run := by
  induction h generalizing s with
  | nil =>
    rw [fullText_nil, List.nil_append] at hrest
    rw [← hrest]
    rfl
  | cons ht _ ih =>
    subst hprev
    rw [fullText_cons, List.append_assoc] at hrest
    have hrun := ih (s := { s with rest := _, tokens := _ :: s.tokens }) hmodes hleading rfl rfl
    rw [run_of_inl (step_of_isNext ht hmodes hleading hrest), hrun, List.reverse_cons,
      List.append_assoc]
    rfl

end Tokenizer

namespace Token

/-- A line break before a token. -/
def newline : Trivia := [⟨.newline, ['\n']⟩]

/-- A line break before what starts no trivia is one piece of trivia. -/
theorem scan_newline {c : Char} {cs : Text} (h : Trivia.piece? .leading c cs = none) :
    Trivia.scan .leading ('\n' :: c :: cs) = (newline, c :: cs) := by
  have hpiece : Trivia.piece? .leading '\n' (c :: cs) = some (.newline, 0) := rfl
  have hscan : Trivia.scan .leading (c :: cs) = ([], c :: cs) := by rw [Trivia.scan, h]
  rw [Trivia.scan, hpiece]
  simp only [List.drop_zero, hscan]
  rfl

/-- A token on a new line is the next one if its characters are. -/
theorem IsNext.of_plain {prev : Option Token} {t : Token} {c : Char} {cs rest : Text}
    (hleading : t.leading = [] ∨ t.leading = newline) (htext : t.text = c :: cs)
    (hpiece : Trivia.piece? .leading c (cs ++ (t.trailing.text ++ rest)) = none)
    (htrailing : Trivia.scan .trailing (t.trailing.text ++ rest) = (t.trailing, rest))
    (hquote : Delimiter.ofText? (c :: (cs ++ (t.trailing.text ++ rest))) = none)
    (hplain : plain prev t.leading c (cs ++ (t.trailing.text ++ rest)) = (t.kind, cs.length)) :
    IsNext prev t rest := by
  refine ⟨?_, htrailing, c, cs, htext, hquote, hplain⟩
  rw [full, htext, List.append_assoc, List.append_assoc]
  rcases hleading with h | h
  · rw [h, Trivia.text_nil, List.nil_append, List.cons_append, Trivia.scan, hpiece]
  · rw [h]
    exact scan_newline hpiece

/-- The token `#if`, with the trivia before it. -/
def poundIf (leading : Trivia) : Token := ⟨leading, .poundIf, "#if".toList, blank⟩

/-- The name of the condition. -/
def conditionName : Token := ⟨[], .identifier, ['A'], []⟩

/-- The tokens of `switch x {` and `case 1:`. -/
def caseHeader : List Token :=
  [⟨[], .switchKw, "switch".toList, blank⟩, ⟨[], .identifier, ['x'], blank⟩,
    ⟨[], .leftBrace, ['\x7b'], []⟩, ⟨newline, .caseKw, "case".toList, blank⟩,
    ⟨[], .integerLiteral, ['1'], []⟩, ⟨[], .colon, [':'], []⟩]

/-- The brace that closes the `switch`. -/
def closingBrace : Token := ⟨newline, .rightBrace, ['\x7d'], []⟩

/-- A line break ends the trivia behind a token. -/
theorem scan_trailing_newline (cs : Text) :
    Trivia.scan .trailing ('\n' :: cs) = ([], '\n' :: cs) := by
  rw [Trivia.scan]
  rfl

/-- The condition of a block is read at the front of the block. -/
theorem areNext_condition {prev : Option Token} {leading : Trivia}
    (h : leading = [] ∨ leading = newline)
    (cs : Text) : AreNext ('\n' :: cs) prev [poundIf leading, conditionName] := by
  refine .cons (.of_plain h rfl rfl (scan_blank (scan_eq_nil rfl)) rfl rfl) (.cons ?_ .nil)
  exact .of_plain (.inl rfl) rfl rfl (scan_trailing_newline cs) rfl rfl

/-- The header of a case is read before a block. -/
theorem areNext_caseHeader (cs : Text) :
    AreNext ('\n' :: cs) none (caseHeader ++ [poundIf newline, conditionName]) := by
  refine .cons (.of_plain (.inl rfl) rfl rfl (scan_blank (scan_eq_nil rfl)) rfl rfl) ?_
  refine .cons (.of_plain (.inl rfl) rfl rfl (scan_blank (scan_eq_nil rfl)) rfl rfl) ?_
  refine .cons (.of_plain (.inl rfl) rfl rfl (scan_trailing_newline _) rfl rfl) ?_
  refine .cons (.of_plain (.inr rfl) rfl rfl (scan_blank (scan_eq_nil rfl)) rfl rfl) ?_
  refine .cons (.of_plain (.inl rfl) rfl rfl (scan_eq_nil rfl) rfl rfl) ?_
  refine .cons (.of_plain (.inl rfl) rfl rfl (scan_trailing_newline _) rfl rfl) ?_
  exact areNext_condition (.inr rfl) cs

/-- The brace behind a block is read at the end. -/
theorem areNext_closingBrace {prev : Option Token} : AreNext [] prev [closingBrace] :=
  .cons (.of_plain (.inr rfl) rfl rfl (scan_eq_nil rfl) rfl rfl) .nil

/-- Where the tokenizer is behind the condition of a block. -/
def behindCondition (s : Text) : Tokenizer where
  text := s.conditional
  rest := '\n' :: (s ++ "\n#endif".toList)
  tokens := [conditionName, poundIf []]

/-- Where it is there when the block stands in a case. -/
def behindCaseHeader (s : Text) : Tokenizer where
  text := s.conditional.inCase
  rest := '\n' :: ((s ++ "\n#endif".toList) ++ "\n\x7d".toList)
  tokens := conditionName :: poundIf newline :: caseHeader.reverse

theorem stream_conditional (s : Text) : stream s.conditional = (behindCondition s).run :=
  Tokenizer.run_of_areNext (areNext_condition (.inl rfl) (s ++ "\n#endif".toList)) rfl rfl rfl rfl

/-- The text of a block in a case is read from the same text on, after the header of the
`switch`. -/
theorem stream_inCase (s : Text) : stream s.conditional.inCase = (behindCaseHeader s).run := by
  let cs : Text := (s ++ "\n#endif".toList) ++ "\n\x7d".toList
  have hfront : "switch x \x7b\ncase 1:\n".toList ++ "#if A\n".toList
      = fullText (caseHeader ++ [poundIf newline, conditionName]) ++ ['\n'] := by decide
  have htext : s.conditional.inCase = ("switch x \x7b\ncase 1:\n".toList ++ "#if A\n".toList) ++
    cs := by
    have hassoc (a b c d : Text) : a ++ ((b ++ c) ++ d) = (a ++ b) ++ (c ++ d) := by simp
    exact hassoc _ _ _ _
  rw [hfront, List.append_assoc, List.singleton_append] at htext
  exact Tokenizer.run_of_areNext (areNext_caseHeader cs) rfl rfl htext rfl

/-- Behind the condition both texts go on alike, but for the brace at the end. -/
theorem alongside_behindCondition (s : Text) :
    Tokenizer.Alongside "\n\x7d".toList [poundIf []] (poundIf newline :: caseHeader.reverse)
      (behindCondition s) (behindCaseHeader s) :=
  ⟨rfl, rfl, rfl, conditionName, [], rfl, rfl⟩

/-- The tokenizer is intact behind the condition: it has made two tokens, and no literal is open. -/
theorem intact_behindCondition (s : Text) : (behindCondition s).Intact :=
  ⟨rfl, List.forall_mem_cons.mpr ⟨⟨List.cons_ne_nil _ _, rfl⟩,
    List.forall_mem_singleton.mpr ⟨List.cons_ne_nil _ _, rfl⟩⟩, nofun, nofun⟩

/-- A block ends with the last letter of `#endif`. -/
theorem getLast?_conditional (s : Text) : s.conditional.getLast? = some 'f' := by
  have htext : s.conditional = ("#if A\n".toList ++ s) ++ "\n#endif".toList :=
    (List.append_assoc _ _ _).symm
  rw [htext, List.getLast?_append_of_ne_nil _ (by decide)]
  rfl

/-- Before the brace at the end, one token is still to be made. -/
theorem run_closingBrace {t : Tokenizer} (hmodes : t.modes = []) (hleading : t.leading = [])
    (hrest : t.rest = "\n\x7d".toList) :
    t.run = t.tokens.reverse ++ [closingBrace, ⟨[], .endOfFile, [], []⟩] := by
  have hfull : t.rest = fullText [closingBrace] ++ [] := hrest
  have hend := Tokenizer.step_nil (s := { t with rest := [], tokens := closingBrace :: t.tokens })
    hmodes hleading rfl
  rw [Tokenizer.run_of_areNext areNext_closingBrace hmodes hleading hfull rfl]
  refine (Tokenizer.run_of_inr hend).trans ?_
  rw [List.reverse_cons, List.append_assoc]
  rfl

/-- **Tokens stay what they were.** In a case, a block has the tokens that it has on its own, if it
ends with its own `#endif`: only the line break before its first token is added, and the closing
brace of the `switch` takes the place of the end of the file. -/
theorem exists_stream_inCase {s : Text} {front : List Token} {leading : Trivia}
    (h : stream s.conditional = front ++ [Tokenizer.endif leading, ⟨[], .endOfFile, [], []⟩]) :
    ∃ ts, stream s.conditional
        = poundIf [] :: (ts ++ [Tokenizer.endif leading]) ++ [⟨[], .endOfFile, [], []⟩] ∧
      stream s.conditional.inCase = caseHeader ++ poundIf newline ::
      (ts ++ [Tokenizer.endif leading])
        ++ [closingBrace, ⟨[], .endOfFile, [], []⟩] := by
  have hnewline : Text.IsNewLine "\n\x7d".toList := ⟨⟨_, rfl⟩, by decide⟩
  obtain ⟨s', t', h', hrest, hmodes, hleading, hs', ht'⟩ :=
    (alongside_behindCondition s).run hnewline (intact_behindCondition s) (List.cons_ne_nil _ _)
      (getLast?_conditional s) ((stream_conditional s).symm.trans h)
  obtain ⟨u, own, hown, hown'⟩ := h'.tokens
  -- what both have made is the block from its condition on
  have hblock : stream s.conditional = s'.tokens.reverse ++ [⟨[], .endOfFile, [], []⟩] := by
    rw [stream_conditional, ← hs', Tokenizer.run_of_inr (Tokenizer.step_nil hmodes hleading hrest)]
  have hcase : stream s.conditional.inCase
      = t'.tokens.reverse ++ [closingBrace, ⟨[], .endOfFile, [], []⟩] := by
    have hmodes' : t'.modes = [] := by
      have hsame := h'.modes
      rw [hmodes] at hsame
      exact List.map_eq_nil_iff.mp hsame
    have hrest' : t'.rest = "\n\x7d".toList := by rw [h'.rest, hrest, List.nil_append]
    rw [stream_inCase, ← ht', run_closingBrace hmodes' (h'.leading.trans hleading) hrest']
  have hlast : u = Tokenizer.endif leading := by
    obtain ⟨htokens, -⟩ :=
      List.append_inj' ((hblock.symm.trans h).trans (List.append_cons front _ _)) rfl
    have hhead : s'.tokens.head? = some (Tokenizer.endif leading) := by
      rw [← List.getLast?_reverse, htokens, List.getLast?_concat]
    rw [hown] at hhead
    exact Option.some.inj hhead
  subst hlast
  refine ⟨own.reverse, ?_, ?_⟩
  · rw [hblock, hown]
    simp
  · rw [hcase, hown']
    simp

end Token

/-! ## What the grammar sees -/

namespace Grammar

/-- The closing brace stands in the place of the end behind a directive. -/
theorem Ahead.braced_ofTokens {endOpensLine endOpensLine' : Bool} {pos pos' : Nat}
    {prev prev' : Option Token} {ts : List Token} {leading : Trivia}
    (hprev : prev.isNone = prev'.isNone ∧ prev.map Token.trailing = prev'.map Token.trailing)
    (h : ∀ t ∈ ts ++ [Tokenizer.endif leading], t.IsSolid)
    (h' : ∀ t ∈ ts ++ [Tokenizer.endif leading, closingBrace], t.IsSolid) :
    Braced (Lexeme.ofTokens endOpensLine pos prev _ h)
      (Lexeme.ofTokens endOpensLine' pos' prev' _ h') := by
  have hsame (t : Token) :
    t.opensLine prev = t.opensLine prev' ∧ t.touches prev = t.touches prev' := by
    obtain ⟨hnone, htrailing⟩ := hprev
    cases prev <;> cases prev' <;> simp_all [opensLine, touches]
  induction ts generalizing pos pos' prev prev' with
  | nil =>
    have hendif := hsame (Tokenizer.endif leading)
    have hloose : loose.contains .poundEndif = false := rfl
    exact .cons ⟨rfl, rfl, hendif.1, hendif.2⟩ (fun _ => hloose) (.nil ⟨rfl, rfl, rfl⟩)
  | cons t ts ih =>
    refine .cons ⟨rfl, rfl, (hsame t).1, (hsame t).2⟩ (fun hnil => ?_)
      (ih ⟨rfl, rfl⟩ _ _ fun _ => ⟨rfl, rfl⟩)
    cases ts <;> cases hnil

/-- The grammar sees a block in a case behind the header of the case, and before a brace. -/
theorem Ahead.exists_ofText_inCase {s : Text} {front : List Token} {leading : Trivia}
    (h : stream s.conditional = front ++ [Tokenizer.endif leading, ⟨[], .endOfFile, [], []⟩]) :
    (ofText s.conditional).isAt .poundIf ∧ ∃ header vs, ofText s.conditional.inCase = header ++ vs ∧
      OpensCase header ∧ Braced (ofText s.conditional) vs := by
  obtain ⟨ts, hblock, hcase⟩ := exists_stream_inCase h
  obtain ⟨hsolid, hahead⟩ := ofText_eq hblock
  have hcase' : stream s.conditional.inCase = (caseHeader ++ poundIf newline ::
      (ts ++ [Tokenizer.endif leading, closingBrace])) ++ [⟨[], .endOfFile, [], []⟩] := by
    rw [hcase]
    simp
  obtain ⟨hsolid', hahead'⟩ := ofText_eq hcase'
  rw [hahead, hahead']
  refine ⟨rfl, _, _, rfl, .intro rfl rfl rfl rfl rfl rfl rfl, ?_⟩
  have hprev : (some (poundIf [])).isNone = (some (poundIf newline)).isNone ∧
      (some (poundIf [])).map Token.trailing = (some (poundIf newline)).map Token.trailing :=
      ⟨rfl, rfl⟩
  refine .cons ⟨rfl, rfl, rfl, rfl⟩ (fun hnil => ?_) (braced_ofTokens hprev _ _)
  cases ts <;> cases hnil

end Grammar

/-! ## From clean ways to diagnostics -/

namespace Entry

variable {e : Entry} {text : Text}

/-- Whether anything goes wrong can be followed without the trees. -/
theorem exists_run_tally (e : Entry) (text : Text) : ∃ tally : Tally,
    e.rule.run (.ofLimit (callLimit (Text.byteLen text)))
    (.clean (.ofText text)) = some ((), ⟨[], tally⟩) ∧
      (tally.isClean ↔ (Parse.ofText e text).diagnostics = []) := by
  have hagree := Tally.counting.run (Simulation.ofLimit (callLimit (Text.byteLen text))) e.rule
    (c := true) (s := .clean (.ofText text)) (t := ⟨.ofText text, []⟩) ⟨rfl, rfl⟩
  rw [e.run_rule text] at hagree
  have hclean : (Parse.ofText e text).diagnostics = [] ↔ Green.allClean (e.parts text) := by
    rw [e.diagnostics_eq_nil_iff, e.isClean_tree]
  cases hrun : e.rule.run (.ofLimit (callLimit (Text.byteLen text))) (.clean (.ofText text)) with
  | none =>
    rw [hrun] at hagree
    exact hagree.elim
  | some r =>
    obtain ⟨⟨⟩, ts, tally⟩ := r
    rw [hrun] at hagree
    obtain ⟨-, hnil, htally⟩ := hagree
    obtain rfl : ts = [] := hnil
    refine ⟨tally, rfl, ?_⟩
    rw [hclean, show tally.isClean = _ from htally, Bool.true_and, Green.allClean_reverse]

/-- What is put together in a clean way has no diagnostics. -/
theorem diagnostics_eq_nil_of_ends (h : e.rule.Ends (.clean (.ofText text)) () (.clean [])) :
    (Parse.ofText e text).diagnostics = [] := by
  obtain ⟨tally, hrun, hclean⟩ := e.exists_run_tally text
  have hstate := (Prod.mk.inj (h _ _ _ hrun)).2
  exact hclean.mp (congrArg (fun s => s.built.isClean) hstate)

end Entry

/-- **Conditional compilation in a case.** A file that is a block from `#if` to `#endif`, with
nothing wrong in it, is accepted in a case of a `switch`, too, if it ends with the `#endif` of the
block and `case` and `default` only stand in it in braces. -/
theorem Parse.conditional_accepted (s : Text)
    (hclean : (ofText .sourceFile s.conditional).diagnostics = [])
    (hone : (Entry.items s.conditional).length = 1)
    (hends : ∃ leading, [⟨leading, .poundEndif, "#endif".toList, []⟩, ⟨[], .endOfFile, [], []⟩]
      <:+ Token.stream s.conditional)
    (hcases : Ahead.hasOpenCase 0 (.ofText s.conditional) = false) :
    (ofText .sourceFile s.conditional.inCase).diagnostics = [] := by
  obtain ⟨leading, front, hfront⟩ := hends
  obtain ⟨hat, header, vs, hahead, hheader, hvs⟩ := Ahead.exists_ofText_inCase hfront.symm
  obtain ⟨n, hrun⟩ := Entry.exists_run_statement_clean hclean hone hat
  refine Entry.diagnostics_eq_nil_of_ends ?_
  rw [hahead]
  exact file_ends_of_block hrun hat hcases hvs hheader

/-- A call and a `switch` with a case of its own can stand between `#if` and `#endif`. -/
theorem Parse.conditional_accepted_switch :
    let s : Text := "f(1)\nswitch y \x7b\ncase 2: break\n\x7d".toList
    (ofText .sourceFile s.conditional).diagnostics = [] ∧ (Entry.items s.conditional).length = 1 ∧
      (∃ leading, [⟨leading, .poundEndif, "#endif".toList, []⟩, ⟨[], .endOfFile, [], []⟩]
        <:+ Token.stream s.conditional) ∧
      Ahead.hasOpenCase 0 (.ofText s.conditional) = false ∧
      (ofText .sourceFile s.conditional.inCase).diagnostics = [] := by
  intro s
  have hclean : (ofText .sourceFile s.conditional).diagnostics = [] :=
    (Entry.diagnostics_eq_nil_iff _ _).mpr (Entry.of_tree? (n := 30) (by decide +kernel))
  have hone : (Entry.items s.conditional).length = 1 := of_decide_eq_true (Entry.of_tree? (n := 30)
    (p := fun tree => (tree.children.flatMap Green.children).length = 1) (by decide +kernel))
  have hends : ∃ leading, [⟨leading, .poundEndif, "#endif".toList, []⟩, ⟨[], .endOfFile, [], []⟩]
      <:+ Token.stream s.conditional :=
    ⟨newline, of_decide_eq_true (Token.of_stream? (n := 30) (p := fun ts => decide (_ <:+ ts))
      (by decide +kernel))⟩
  have hcases : (!Ahead.hasOpenCase 0 (.ofText s.conditional)) = true :=
    Ahead.of_stream? (n := 30) (p := fun ts => !Ahead.hasOpenCase 0 ts) (by decide +kernel)
  rw [Bool.not_eq_true'] at hcases
  exact ⟨hclean, hone, hends, hcases, conditional_accepted s hclean hone hends hcases⟩

end SwiftTree
