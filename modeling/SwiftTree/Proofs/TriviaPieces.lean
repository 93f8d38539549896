import Mathlib.Data.List.TakeWhile
import SwiftTree.Proofs.Appending

/-!
# Pieces of trivia fit their text

What a piece of trivia is can be told from the text in which it stands (`Piece.Fits`): a line break
is not cut in two, white space does not go on, and a comment ends where it has to. A scan finds such
pieces (`Trivia.scan_fits`), and where one for what is behind a token stops, a line break is next or
no trivia at all (`Trivia.leadsLine_behind`).
-/

namespace SwiftTree

open Text

namespace Trivia

/-- The number of block comments that are open behind a text in front of which `depth` are open. -/
def commentDepth (depth : Nat) : Text → Nat
  | '/' :: '*' :: cs => commentDepth (depth + 1) cs
  | '*' :: '/' :: cs => commentDepth (depth - 1) cs
  | _ :: cs => commentDepth depth cs
  | [] => depth

/-- Whether a text is what follows when `depth` block comments are open: it goes on to where the
last one is closed, or to the end. -/
structure ClosesComments (depth : Nat) (cs behind : Text) : Prop where
  /-- the text ends with a closing, or everything ends -/
  ends : commentDepth depth cs = 0 ∧ ['*', '/'] <:+ cs ∨ behind = []
  /-- there is a comment open all the way -/
  first : ∀ part, part <+: cs → part ≠ cs → commentDepth depth part ≠ 0

/-- Whether no run of blanks goes on from one text to the next. -/
def Seam (before behind : Text) : Prop :=
  ∀ c ∈ before.getLast?, ∀ d ∈ behind.head?, isInlineBlank c → isInlineBlank d = false

end Trivia

/-- What a piece of trivia is, between the text before it and the text behind it. -/
def Piece.Fits (before behind : Text) (p : Piece) : Prop :=
  match p.kind with
  | .newline =>
    p.text = ['\n'] ∨ p.text = ['\r', '\n'] ∨ p.text = ['\r'] ∧ behind.head? ≠ some '\n'
  | .whitespace =>
    (p.text ≠ [] ∧ ∀ c ∈ p.text, isInlineBlank c) ∧
      (∀ c ∈ before.getLast?, isInlineBlank c = false) ∧ ∀ c ∈ behind.head?, isInlineBlank c = false
  | .lineComment =>
    (∃ cs, p.text = '/' :: '/' :: cs) ∧ (∀ c ∈ p.text, isLineBreak c = false) ∧
      ∀ c ∈ behind.head?, isLineBreak c
  | .blockComment => ∃ cs, p.text = '/' :: '*' :: cs ∧ Trivia.ClosesComments 1 cs behind

namespace Trivia

/-- Whether every piece is what it has to be, between the text before the first and the text behind
the last. -/
def Fits (before behind : Text) : Trivia → Prop
  | [] => True
  | p :: ps => p.Fits before (text ps ++ behind) ∧ Fits (before ++ p.text) behind ps

/-- Whether there is no trivia, or it starts with a line break. -/
def LeadsLine (ps : Trivia) : Prop := ∀ p ∈ ps.head?, p.kind = .newline

theorem leadsLine_nil : LeadsLine [] := nofun

variable {side : Side} {c : Char} {cs before behind : Text} {depth : Nat}

/-! ## Block comments -/

/-- Characters that neither open nor close a comment leave as many open as there were. -/
theorem commentDepth_other (hopen : ∀ ds, c = '/' → cs = '*' :: ds → False)
    (hclose : ∀ ds, c = '*' → cs = '/' :: ds → False) :
    commentDepth depth (c :: cs) = commentDepth depth cs := by
  rw [commentDepth]
  · exact hopen
  · exact hclose

/-- A character that starts neither an opening nor a closing is passed over. -/
theorem ClosesComments.other (h : ClosesComments depth cs behind) (hdepth : 0 < depth)
    (hopen : ∀ ds, c = '/' → cs = '*' :: ds → False)
    (hclose : ∀ ds, c = '*' → cs = '/' :: ds → False) : ClosesComments depth (c :: cs) behind := by
  refine ⟨?_, fun part hpart hne => ?_⟩
  · rw [commentDepth_other hopen hclose]
    exact h.ends.imp_left (And.imp_right fun hsuffix => hsuffix.trans (List.suffix_cons c cs))
  · cases part with
    | nil => exact Nat.ne_of_gt hdepth
    | cons d part =>
      obtain ⟨rfl, htail⟩ := List.cons_prefix_cons.mp hpart
      -- what is left of a shorter text starts no opening or closing either
      have hstarts {e : Char} (hno : ∀ ds, cs = e :: ds →
        False) (ds : Text) (heq : part = e :: ds) :
          False := by
        obtain ⟨rest, hrest⟩ := htail
        exact hno (ds ++ rest) (by rw [← hrest, heq]; rfl)
      rw [commentDepth_other (fun ds hc => hstarts (fun ds => hopen ds hc) ds)
        fun ds hc => hstarts (fun ds => hclose ds hc) ds]
      exact h.first part htail fun heq => hne (congrArg _ heq)

/-- An opening or a closing is passed over as a whole. -/
theorem ClosesComments.pair {depth' : Nat} {d : Char} (h : ClosesComments depth' cs behind)
    (hdepth : 0 < depth) (hpair : ∀ ds, commentDepth depth (c :: d :: ds) = commentDepth depth' ds)
    (hfirst : commentDepth depth [c] = depth) : ClosesComments depth (c :: d :: cs) behind := by
  refine ⟨?_, fun part hpart hne => ?_⟩
  · rw [hpair]
    refine h.ends.imp_left (And.imp_right fun hsuffix => hsuffix.trans ?_)
    exact (List.suffix_cons d cs).trans (List.suffix_cons c _)
  · match part with
    | [] => exact Nat.ne_of_gt hdepth
    | [e] =>
      obtain ⟨rfl, -⟩ := List.cons_prefix_cons.mp hpart
      rw [hfirst]
      exact Nat.ne_of_gt hdepth
    | e :: e' :: part =>
      obtain ⟨rfl, hbehind⟩ := List.cons_prefix_cons.mp hpart
      obtain ⟨rfl, htail⟩ := List.cons_prefix_cons.mp hbehind
      rw [hpair]
      exact h.first part htail fun heq => hne (by rw [heq])

/-- The length of a block comment goes to where it is closed, or to the end of the text. -/
theorem closesComments_take (hdepth : 0 < depth) (cs : Text) :
    ClosesComments depth (cs.take (blockCommentLength depth cs))
      (cs.drop (blockCommentLength depth cs)) := by
  fun_induction blockCommentLength depth cs with
  | case1 depth cs ih => exact (ih (Nat.succ_pos depth)).pair hdepth (fun _ => rfl) rfl
  | case2 depth cs hlast =>
    obtain rfl : depth = 1 := by omega
    refine ⟨.inl ⟨rfl, List.suffix_rfl⟩, fun part hpart hne => ?_⟩
    rcases part with - | ⟨e, - | ⟨e', part⟩⟩
    · exact Nat.one_ne_zero
    · obtain ⟨rfl, -⟩ := List.cons_prefix_cons.mp hpart
      exact Nat.one_ne_zero
    · exact absurd (hpart.eq_of_length_le (by simp)) hne
  | case3 depth cs hmore ih =>
    exact (ih (by omega)).pair hdepth (fun _ => rfl) rfl
  | case4 depth c cs hopen hclose ih =>
    have hstarts {e : Char} (hno : ∀ ds, cs = e :: ds → False) (ds : Text)
        (heq : cs.take (blockCommentLength depth cs) = e :: ds) : False := by
      refine hno (ds ++ cs.drop (blockCommentLength depth cs)) ?_
      rw [← List.cons_append, ← heq, List.take_append_drop]
    exact (ih hdepth).other hdepth (fun ds hc => hstarts (fun ds => hopen ds hc) ds)
      fun ds hc => hstarts (fun ds => hclose ds hc) ds
  | case5 depth => exact ⟨.inr rfl, fun part hpart hne => absurd (List.prefix_nil.mp hpart) hne⟩

/-! ## Single pieces -/

theorem take_length_takeWhile (test : Char → Bool) (cs : Text) :
    cs.take (cs.takeWhile test).length = cs.takeWhile test :=
  (List.prefix_iff_eq_take.mp (List.takeWhile_prefix test)).symm

/-- What is left behind the characters that pass a test is the text without them. -/
theorem drop_length_takeWhile (test : Char → Bool) (cs : Text) :
    cs.drop (cs.takeWhile test).length = cs.dropWhile test := by
  have hsplit := List.take_append_drop (cs.takeWhile test).length cs
  rw [take_length_takeWhile] at hsplit
  exact List.append_cancel_left (hsplit.trans List.takeWhile_append_dropWhile.symm)

/-- The first character behind those that pass a test does not pass it. -/
theorem not_of_mem_head?_dropWhile {test : Char → Bool} {d : Char}
    (h : d ∈ (cs.dropWhile test).head?) : test d = false := by
  have hhead := List.head?_dropWhile_not test cs
  rw [Option.mem_def.mp h] at hhead
  simpa using hhead

theorem not_isInlineBlank_of_isLineBreak (h : isLineBreak c) : isInlineBlank c = false := by
  rw [isInlineBlank, h, Bool.not_true, Bool.and_false]

/-- Behind a character that is no blank there is a seam. -/
theorem seam_of_last {d : Char} (h : isInlineBlank d = false) : Seam (before ++ [d]) behind := by
  intro e he _ _ hblank
  rw [List.getLast?_concat] at he
  obtain rfl := Option.some.inj he
  rw [h] at hblank
  cases hblank

theorem seam_of_head (h : ∀ d ∈ behind.head?, isInlineBlank d = false) : Seam before behind :=
  fun _ _ d hd _ => h d hd

/-- A carriage return takes a line feed behind it along. -/
theorem newline_fits (hbreak : (c == '\n' || c == '\r') = true) :
    let more := if c == '\r' && peek cs == '\n' then 1 else 0
    (⟨.newline, c :: cs.take more⟩ : Piece).Fits before (cs.drop more) ∧
      Seam (before ++ c :: cs.take more) (cs.drop more) := by
  intro more
  have hlast {d : Char} (hd : isLineBreak d) (front : Text) : Seam (before ++ (front ++ [d]))
      (cs.drop more) := by
    rw [← List.append_assoc]
    exact seam_of_last (not_isInlineBlank_of_isLineBreak hd)
  by_cases hpair : (c == '\r' && peek cs == '\n') = true
  · have hmore : more = 1 := if_pos hpair
    obtain ⟨hc, hd⟩ := Bool.and_eq_true_iff.mp hpair
    obtain rfl := beq_iff_eq.mp hc
    cases cs with
    | nil => cases hd
    | cons d cs =>
      obtain rfl : d = '\n' := beq_iff_eq.mp hd
      rw [hmore] at hlast ⊢
      exact ⟨.inr (.inl rfl), hlast rfl ['\r']⟩
  · have hmore : more = 0 := if_neg hpair
    rw [hmore] at hlast ⊢
    refine ⟨?_, hlast hbreak []⟩
    rcases Bool.or_eq_true_iff.mp hbreak with hc | hc
    · exact .inl (by rw [beq_iff_eq.mp hc]; rfl)
    · refine .inr (.inr ⟨by rw [beq_iff_eq.mp hc]; rfl, fun hhead => hpair ?_⟩)
      rw [hc, Bool.true_and, beq_iff_eq, peek, List.headD_eq_head?_getD]
      rw [List.drop_zero] at hhead
      rw [hhead]
      rfl

/-- A line comment goes on to the end of its line. -/
theorem lineComment_fits :
    (⟨.lineComment, '/' :: ('/' :: cs).take (restOfLine ('/' :: cs)).length⟩ :
      Piece).Fits before (('/' :: cs).drop (restOfLine ('/' :: cs)).length) ∧
    Seam (before ++ '/' :: ('/' :: cs).take (restOfLine ('/' :: cs)).length)
      (('/' :: cs).drop (restOfLine ('/' :: cs)).length) := by
  have hline : ∀ d ∈ (('/' :: cs).drop (restOfLine ('/' :: cs)).length).head?, isLineBreak d := by
    intro d hd
    rw [restOfLine, drop_length_takeWhile] at hd
    simpa using not_of_mem_head?_dropWhile hd
  refine ⟨⟨⟨restOfLine cs, ?_⟩, ?_, hline⟩, seam_of_head fun d hd =>
    not_isInlineBlank_of_isLineBreak (hline d hd)⟩
  · rw [restOfLine, take_length_takeWhile]
    rfl
  · rw [restOfLine, take_length_takeWhile]
    intro d hd
    rcases List.mem_cons.mp hd with rfl | hd
    · rfl
    · simpa using List.mem_takeWhile_imp hd

/-- A block comment goes on to where it is closed. -/
theorem blockComment_fits :
    (⟨.blockComment, '/' :: ('*' :: cs).take (blockCommentLength 1 cs + 1)⟩ : Piece).Fits before
        (('*' :: cs).drop (blockCommentLength 1 cs + 1)) ∧
      Seam (before ++ '/' :: ('*' :: cs).take (blockCommentLength 1 cs + 1))
        (('*' :: cs).drop (blockCommentLength 1 cs + 1)) := by
  have hcloses := closesComments_take Nat.one_pos cs
  refine ⟨⟨_, rfl, hcloses⟩, ?_⟩
  rw [List.take_succ_cons, List.drop_succ_cons]
  rcases hcloses.ends with ⟨-, front, hfront⟩ | hend
  · have hlast : before ++ '/' :: '*' :: cs.take (blockCommentLength 1 cs)
        = (before ++ '/' :: '*' :: front ++ ['*']) ++ ['/'] := by
      rw [← hfront]
      simp
    rw [hlast]
    exact seam_of_last (by decide)
  · rw [hend]
    exact seam_of_head nofun

/-- White space goes on as far as it can, and was not cut off before. -/
theorem whitespace_fits (hc : isInlineBlank c) (hseam : Seam before (c :: cs)) :
    (⟨.whitespace, c :: cs.take (cs.takeWhile isInlineBlank).length⟩ : Piece).Fits before
        (cs.drop (cs.takeWhile isInlineBlank).length) ∧
      Seam (before ++ c :: cs.take (cs.takeWhile isInlineBlank).length)
        (cs.drop (cs.takeWhile isInlineBlank).length) := by
  rw [take_length_takeWhile, drop_length_takeWhile]
  refine ⟨⟨⟨List.cons_ne_nil _ _, List.forall_mem_cons.mpr ⟨hc, fun d hd => ?_⟩⟩, fun d hd => ?_,
    fun d hd => not_of_mem_head?_dropWhile hd⟩,
    seam_of_head fun d hd => not_of_mem_head?_dropWhile hd⟩
  · exact List.mem_takeWhile_imp hd
  · refine Bool.eq_false_iff.mpr fun hblank => ?_
    have hnext := hseam d hd c rfl hblank
    rw [hc] at hnext
    cases hnext

/-- A piece of trivia that is found fits the text, and no blanks go on behind it. -/
theorem piece?_fits {kind : TriviaKind} {more : Nat} (h : piece? side c cs = some (kind, more))
    (hseam : Seam before (c :: cs)) :
    (⟨kind, c :: cs.take more⟩ : Piece).Fits before (cs.drop more) ∧
      Seam (before ++ c :: cs.take more) (cs.drop more) := by
  -- a comment has its second character, since the end of the text reads as NUL
  have hpeek {d : Char} (hd : d ≠ '\x00') (h : (c == '/' && peek cs == d) = true) :
      c = '/' ∧ ∃ ds, cs = d :: ds := by
    obtain ⟨hc, hd'⟩ := Bool.and_eq_true_iff.mp h
    cases cs with
    | nil => exact absurd (beq_iff_eq.mp hd').symm hd
    | cons e ds => exact ⟨beq_iff_eq.mp hc, ds, by rw [← show e = d from beq_iff_eq.mp hd']⟩
  unfold piece? at h
  split at h
  · rename_i hbreak
    split at h
    · cases h
    · obtain ⟨rfl, rfl⟩ := Prod.mk.inj (Option.some.inj h)
      exact newline_fits hbreak
  · rename_i hbreak
    split at h
    · rename_i hline
      obtain ⟨rfl, rfl⟩ := Prod.mk.inj (Option.some.inj h)
      obtain ⟨rfl, ds, rfl⟩ := hpeek (by decide) hline
      exact lineComment_fits
    · split at h
      · rename_i hblock
        obtain ⟨rfl, rfl⟩ := Prod.mk.inj (Option.some.inj h)
        obtain ⟨rfl, ds, rfl⟩ := hpeek (by decide) hblock
        exact blockComment_fits
      · split at h
        · rename_i hblank
          obtain ⟨rfl, rfl⟩ := Prod.mk.inj (Option.some.inj h)
          refine whitespace_fits ?_ hseam
          rw [isInlineBlank, hblank, Bool.true_and, Bool.not_eq_true']
          exact Bool.eq_false_iff.mpr hbreak
        · cases h

/-! ## Scans -/

/-- **All trivia that a scan finds fits the text:** each piece is as long as it can be, and is what
the text has there. -/
theorem scan_fits (side : Side) (cs : Text) (hseam : Seam before cs) :
    Fits before (scan side cs).2 (scan side cs).1 := by
  fun_induction scan side cs generalizing before with
  | case1 => exact trivial
  | case2 => exact trivial
  | case3 c cs kind more hpiece ps rest hscan ih =>
    obtain ⟨hfits, hbehind⟩ := piece?_fits hpiece hseam
    have hrest := scan_text side (cs.drop more)
    rw [hscan] at ih hrest
    refine ⟨?_, ih hbehind⟩
    rw [hrest]
    exact hfits

/-- Behind a token no line break is found. -/
theorem containsNewline_scan_trailing (cs : Text) :
    (scan .trailing cs).1.containsNewline = false := by
  generalize hside : Side.trailing = side
  fun_induction scan side cs with
  | case1 => rfl
  | case2 => rfl
  | case3 c cs kind more hpiece ps rest hscan ih =>
    subst hside
    rw [hscan] at ih
    have hkind : kind ≠ .newline := by
      rintro rfl
      unfold piece? at hpiece
      split at hpiece
      · cases hpiece
      · repeat' split at hpiece
        all_goals cases hpiece
    rw [containsNewline, List.any_cons, beq_false_of_ne hkind]
    exact ih

/-- Trivia that starts with a line break has one if it has anything. -/
theorem LeadsLine.containsNewline {ps : Trivia} (h : ps.LeadsLine) :
    ps.containsNewline = !ps.isEmpty := by
  cases ps with
  | nil => rfl
  | cons p ps => rw [Trivia.containsNewline, List.any_cons, h p rfl]; rfl

theorem scan_of_piece? {kind : TriviaKind} {more : Nat} (h : piece? side c cs = some (kind, more)) :
    (scan side (c :: cs)).1 = ⟨kind, c :: cs.take more⟩ :: (scan side (cs.drop more)).1 := by
  rw [scan, h]

/-- What is left behind the trivia of a token starts with a line break, or with no trivia. -/
theorem leadsLine_behind (cs : Text) : LeadsLine (scan .leading (scan .trailing cs).2).1 := by
  generalize hside : Side.trailing = side
  fun_induction scan side cs with
  | case1 =>
    rw [scan]
    exact leadsLine_nil
  | case2 c cs hpiece =>
    subst hside
    -- only a line break stops one scan and not the other
    unfold piece? at hpiece
    split at hpiece
    · rename_i hbreak
      obtain ⟨more, hleading⟩ : ∃ more, piece? .leading c cs = some (.newline, more) :=
        ⟨_, by rw [piece?, if_pos hbreak]; rfl⟩
      rw [scan_of_piece? hleading]
      rintro p ⟨⟩
      rfl
    · rename_i hbreak
      have hnone : piece? .leading c cs = none := by rw [piece?, if_neg hbreak, hpiece]
      rw [scan, hnone]
      exact leadsLine_nil
  | case3 c cs kind more hpiece ps rest hscan ih =>
    subst hside
    rw [hscan] at ih
    exact ih

/-- In front of a token all blanks are trivia. -/
theorem not_isBlank_behind {cs ds : Text} (h : (scan .leading cs).2 = c :: ds) :
    isBlank c = false := by
  generalize hside : Side.leading = side at h
  fun_induction scan side cs with
  | case1 => cases h
  | case2 d es hpiece =>
    subst hside
    obtain ⟨rfl, rfl⟩ := List.cons.inj h
    refine Bool.eq_false_iff.mpr fun hblank => ?_
    unfold piece? at hpiece
    rw [if_pos hblank, if_neg (by decide : ¬Side.leading = Side.trailing)] at hpiece
    repeat' split at hpiece
    all_goals cases hpiece
  | case3 d es kind more hpiece ps rest hscan ih =>
    subst hside
    rw [hscan] at ih
    exact ih h

/-- A line break leads a line. -/
theorem leadsLine_of_isLineBreak (h : ∀ c ∈ cs.head?, isLineBreak c) :
    LeadsLine (scan .leading cs).1 := by
  cases cs with
  | nil =>
    rw [scan]
    exact leadsLine_nil
  | cons c cs =>
    obtain ⟨more, hpiece⟩ : ∃ more, piece? .leading c cs = some (.newline, more) :=
      ⟨_, if_pos (h c rfl)⟩
    rw [scan_of_piece? hpiece]
    rintro p ⟨⟩
    rfl

/-- Where a line break or no trivia comes next, no blanks do. -/
theorem seam_of_leadsLine (h : LeadsLine (scan .leading cs).1) : Seam before cs := by
  refine seam_of_head fun c hc => ?_
  obtain ⟨cs, rfl⟩ := List.head?_eq_some_iff.mp hc
  refine Bool.eq_false_iff.mpr fun hblank => ?_
  obtain ⟨hblank', hbreak⟩ := Bool.and_eq_true_iff.mp hblank
  have hslash : (c == '/') = false := by
    refine beq_false_of_ne ?_
    rintro rfl
    cases hblank'
  have hpiece : piece? .leading c cs = some (.whitespace, (cs.takeWhile isInlineBlank).length) := by
    rw [piece?, if_neg (Bool.not_eq_true _ ▸ (Bool.not_eq_true' _ ▸ hbreak)), hslash,
      Bool.false_and, if_neg Bool.false_ne_true, Bool.false_and, if_neg Bool.false_ne_true,
      if_pos hblank']
  rw [scan_of_piece? hpiece] at h
  cases h _ rfl

end Trivia

end SwiftTree
