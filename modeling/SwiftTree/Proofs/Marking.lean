import Mathlib.Data.Char
import Mathlib.Data.List.Lex
import Mathlib.Data.List.Nodup
import Mathlib.Data.Prod.Lex
import SwiftTree.Marker
import SwiftTree.Proofs.Rebuilding
import SwiftTree.Proofs.Tiling

/-!
# Markers are taken out as they were put in

A text without markers is marked by writing markers at positions of it (`Marker.mark`). Where the
text has no opener of its own, taking the markers out again gives back the text and the markers
(`Markers.extract_mark`). The seams make no difference: a number sign in front of a marker does not
open one, since an opener has a circumflex behind it, and what closes a marker is consumed with its
number sign.
-/

namespace SwiftTree

namespace Text

variable {part before after : Text}

/-- A text is listed before another one if it is less, character by character. -/
theorem precedes_iff {s t : Text} : precedes s t ↔ s < t := by
  induction s generalizing t with
  | nil => cases t <;> simp [precedes]
  | cons a s ih =>
    cases t with
    | nil => simp [precedes]
    | cons b t =>
      rw [precedes, List.cons_lt_cons_iff]
      by_cases h : a = b
      · simp [h, ih]
      · simp [h, Char.lt_def, UInt32.lt_iff_toNat_lt]

theorem splitAtFirst_eq_none (h : hasPart part after = false) : splitAtFirst part after = none :=
  Option.not_isSome_iff_eq_none.mp (Bool.eq_false_iff.mp h)

/-- A text has a part if the part starts somewhere. -/
theorem hasPart_cons (part : Text) (c : Char) (cs : Text) :
    hasPart part (c :: cs) = (startsWith (c :: cs) part || hasPart part cs) := by
  rw [hasPart, splitAtFirst]
  cases startsWith (c :: cs) part with
  | true => rfl
  | false => exact Option.isSome_map

/-- What is in a text is in a longer one. -/
theorem not_hasPart_of_append (hpart : part ≠ []) (h : hasPart part (before ++ after) = false) :
    hasPart part before = false ∧ hasPart part after = false := by
  induction before with
  | nil =>
    obtain ⟨c, part, rfl⟩ := List.exists_cons_of_ne_nil hpart
    exact ⟨rfl, h⟩
  | cons c before ih =>
    rw [List.cons_append, hasPart_cons, Bool.or_eq_false_iff] at h
    obtain ⟨hbefore, hafter⟩ := ih h.2
    refine ⟨?_, hafter⟩
    rw [hasPart_cons, hbefore, Bool.or_false]
    refine Bool.eq_false_iff.mpr fun hstarts => Bool.eq_false_iff.mp h.1 ?_
    exact List.isPrefixOf_iff_prefix.mpr
      ((List.isPrefixOf_iff_prefix.mp hstarts).trans (List.prefix_append _ _))

end Text

namespace Marker

open Text

/-- How a marker is written. -/
def written (m : Marker) : Text := opener ++ m.name ++ closer

/-- The markers at a position, in the order of a list. -/
def standing (ms : List Marker) (pos : Nat) : List Marker := ms.filter fun m => m.offset == pos

/-- A text that starts at `pos` with markers written into it, each at its place. Several at one
place are written in the order of the list. -/
def markFrom (ms : List Marker) (pos : Nat) : Text → Text
  | [] => (standing ms pos).flatMap written
  | c :: cs => (standing ms pos).flatMap written ++ c :: markFrom ms (pos + c.utf8Size) cs

/-- A text with markers written into it, each at its place. -/
def mark (ms : List Marker) (text : Text) : Text := markFrom ms 0 text

/-- The markers that are written into a text that starts at `pos`, as they are met. -/
def metFrom (ms : List Marker) (pos : Nat) : Text → List Marker
  | [] => standing ms pos
  | c :: cs => standing ms pos ++ metFrom ms (pos + c.utf8Size) cs

variable {m : Marker} {ms : List Marker} {text : Text}

/-! ## Seams -/

/-- No character of a name is part of an opener or a closer. -/
theorem ne_of_isName {name : Text} (h : isName name) {c : Char} (hc : c ∈ name) :
    c ≠ '#' ∧ c ≠ '^' := by
  have hall := List.all_eq_true.mp (Bool.and_eq_true_iff.mp h).2 c hc
  have hpound : (isAlphanumeric '#' || '#' == '_') = false := by decide +kernel
  have hcircumflex : (isAlphanumeric '^' || '^' == '_') = false := by decide +kernel
  constructor
  · rintro rfl
    exact Bool.false_ne_true (hpound.symm.trans hall)
  · rintro rfl
    exact Bool.false_ne_true (hcircumflex.symm.trans hall)

/-- A name is split off at the closer behind it. -/
theorem splitAtFirst_closer {name : Text} (h : ∀ c ∈ name, c ≠ '^') (rest : Text) :
    splitAtFirst closer (name ++ closer ++ rest) = some (name, rest) := by
  induction name with
  | nil => rfl
  | cons c name ih =>
    have hc : ('^' == c) = false := beq_eq_false_iff_ne.mpr (h c List.mem_cons_self).symm
    have hstarts : startsWith (c :: (name ++ closer ++ rest)) closer = false := by
      simp [startsWith, closer, List.isPrefixOf, hc]
    rw [List.cons_append, List.cons_append, splitAtFirst, hstarts, ih fun d hd =>
      h d (List.mem_cons_of_mem c hd)]
    rfl

/-- What is in front of an opener, and has no opener itself, is split off at it. -/
theorem splitAtFirst_opener {front : Text} (h : hasPart opener front = false) (rest : Text) :
    splitAtFirst opener (front ++ (opener ++ rest)) = some (front, rest) := by
  induction front with
  | nil => rfl
  | cons c front ih =>
    rw [hasPart_cons, Bool.or_eq_false_iff] at h
    -- an opener across the seam would have its circumflex where the next opener has a number sign
    have hstarts : startsWith (c :: (front ++ (opener ++ rest))) opener = false := by
      rw [← h.1]
      cases front with
      | nil => simp [startsWith, opener, List.isPrefixOf]
      | cons d front => simp [startsWith, opener, List.isPrefixOf]
    rw [List.cons_append, splitAtFirst, hstarts, ih h.2]
    rfl

/-! ## Taking markers out -/

end Marker

namespace Markers

open Marker Text

variable {m : Marker} {ms : List Marker} {text front : Text} {offset pos : Nat}

/-- Where no marker is, nothing is taken out. -/
theorem extractFrom_plain (h : hasPart opener text = false) :
    extractFrom offset text = (text, []) := by
  rw [extractFrom]
  split
  · rfl
  · rename_i hopened
    rw [splitAtFirst_eq_none h] at hopened
    cases hopened

/-- A marker behind something that has no opener is taken out. -/
theorem extractFrom_written (hfront : hasPart opener front = false) (hname : isName m.name)
    (hoffset : m.offset = offset + byteLen front) (rest : Text) :
    extractFrom offset (front ++ (written m ++ rest))
      = (front ++ (extractFrom m.offset rest).1, m :: (extractFrom m.offset rest).2) := by
  have hopened : splitAtFirst opener (front ++ (written m ++ rest))
      = some (front, m.name ++ closer ++ rest) := by
    rw [written, List.append_assoc, List.append_assoc, splitAtFirst_opener hfront,
      List.append_assoc]
  have hclosed : splitAtFirst closer (m.name ++ closer ++ rest) = some (m.name, rest) :=
    splitAtFirst_closer (fun _ hc => (ne_of_isName hname hc).2) rest
  rw [extractFrom]
  split
  · rename_i h
    cases hopened.symm.trans h
  · rename_i h
    obtain ⟨rfl, rfl⟩ := Prod.mk.inj (Option.some.inj (hopened.symm.trans h))
    split
    · rename_i h
      cases hclosed.symm.trans h
    · rename_i h
      obtain ⟨rfl, rfl⟩ := Prod.mk.inj (Option.some.inj (hclosed.symm.trans h))
      rw [if_pos hname, ← hoffset]

/-- Several markers at one place are taken out, if what stands behind them has no opener of its
own. -/
theorem extractFrom_standing {here found : List Marker} {rest marked : Text}
    (hhere : ∀ m ∈ here, isName m.name ∧ m.offset = pos)
    (hrest : ∀ offset front, pos = offset + byteLen front → hasPart opener (front ++ rest) = false →
      extractFrom offset (front ++ marked) = (front ++ rest, found))
    (hpos : pos = offset + byteLen front) (hplain : hasPart opener (front ++ rest) = false) :
    extractFrom offset (front ++ (here.flatMap written ++ marked)) =
    (front ++ rest, here ++ found) := by
  induction here generalizing offset front with
  | nil => exact hrest offset front hpos hplain
  | cons m here ih =>
    obtain ⟨hname, hoffset⟩ := hhere m List.mem_cons_self
    obtain ⟨hfront, hplain⟩ := not_hasPart_of_append (by decide) hplain
    have hbehind : extractFrom m.offset ([] ++ (here.flatMap written ++ marked))
        = ([] ++ rest, here ++ found) :=
      ih (fun a ha => hhere a (List.mem_cons_of_mem m ha)) hoffset.symm hplain
    rw [List.flatMap_cons, List.append_assoc,
      extractFrom_written hfront hname (hoffset.trans hpos), ← List.nil_append (_ ++ marked),
      hbehind]
    rfl

/-- Taking markers out of a marked text gives back the text and the markers. The text starts behind
`front`, which was passed over since the last marker. -/
theorem extractFrom_mark (hnames : ∀ m ∈ ms, isName m.name) (hpos : pos = offset + byteLen front)
    (hplain : hasPart opener (front ++ text) = false) :
    extractFrom offset (front ++ markFrom ms pos text) = (front ++ text, metFrom ms pos text) := by
  have hhere (pos : Nat) : ∀ m ∈ standing ms pos, isName m.name ∧ m.offset = pos := fun m hm =>
    let ⟨hm, hat⟩ := List.mem_filter.mp hm
    ⟨hnames m hm, beq_iff_eq.mp hat⟩
  induction text generalizing pos offset front with
  | nil =>
    have hend : extractFrom offset (front ++ ((standing ms pos).flatMap written ++ []))
        = (front ++ [], standing ms pos ++ []) :=
      extractFrom_standing (hhere pos) (fun _ _ _ hplain => extractFrom_plain hplain) hpos hplain
    simp only [List.append_nil] at hend ⊢
    exact hend
  | cons c text ih =>
    refine extractFrom_standing (hhere pos) (fun offset front hpos hplain => ?_) hpos hplain
    have hbehind : extractFrom offset ((front ++ [c]) ++ markFrom ms (pos + c.utf8Size) text)
        = ((front ++ [c]) ++ text, metFrom ms (pos + c.utf8Size) text) :=
      ih (by rw [hpos, byteLen_append, byteLen_cons, byteLen_nil, Nat.add_zero, Nat.add_assoc])
        (by rwa [List.append_assoc])
    rwa [List.append_assoc, List.append_assoc] at hbehind

/-! ## Which markers are met -/

/-- The markers that are met are those at positions of the text: in front of some part of it. -/
theorem mem_metFrom_iff : m ∈ metFrom ms pos text ↔
    m ∈ ms ∧ ∃ before behind, text = before ++ behind ∧ m.offset = pos + byteLen before := by
  have hstanding (pos : Nat) : m ∈ standing ms pos ↔ m ∈ ms ∧ m.offset = pos := by
    rw [standing, List.mem_filter, beq_iff_eq]
  induction text generalizing pos with
  | nil =>
    rw [metFrom, hstanding]
    refine and_congr_right fun _ => ⟨fun h => ⟨[], [], rfl, h⟩, ?_⟩
    rintro ⟨before, behind, htext, h⟩
    rwa [(List.append_eq_nil_iff.mp htext.symm).1] at h
  | cons c text ih =>
    refine (List.mem_append.trans (or_congr (hstanding pos) ih)).trans ?_
    rw [← and_or_left]
    refine and_congr_right fun _ => ⟨?_, ?_⟩
    · rintro (h | ⟨before, behind, rfl, h⟩)
      · exact ⟨[], c :: text, rfl, h⟩
      · exact ⟨c :: before, behind, rfl, by rw [h, byteLen_cons, Nat.add_assoc]⟩
    · rintro ⟨before, behind, htext, h⟩
      cases before with
      | nil => exact .inl h
      | cons d before =>
        obtain ⟨rfl, rfl⟩ := List.cons.inj htext
        exact .inr ⟨before, behind, rfl, by rw [h, byteLen_cons, Nat.add_assoc]⟩

/-- No marker is met twice. -/
theorem nodup_metFrom (h : ms.Nodup) : (metFrom ms pos text).Nodup := by
  induction text generalizing pos with
  | nil => exact h.filter _
  | cons c text ih =>
    refine List.nodup_append'.mpr ⟨h.filter _, ih, fun m hm hlater => ?_⟩
    obtain ⟨-, before, behind, -, hoffset⟩ := mem_metFrom_iff.mp hlater
    have hhere := beq_iff_eq.mp (List.mem_filter.mp hm).2
    have := c.utf8Size_pos
    omega

/-- Every marker of a list is met once, if it stands at a place of the text. -/
theorem metFrom_perm (h : ms.Nodup) (hplaces : ∀ m ∈ ms, IsBoundary m.offset text) :
    (metFrom ms 0 text).Perm ms := by
  refine (List.perm_ext_iff_of_nodup (nodup_metFrom h) h).mpr fun m => ?_
  rw [mem_metFrom_iff]
  refine ⟨fun hm => hm.1, fun hm => ⟨hm, ?_⟩⟩
  obtain ⟨before, behind, htext, hlen⟩ := hplaces m hm
  exact ⟨before, behind, htext, by omega⟩

/-! ## The order of markers -/

/-- Markers are listed by offset, and at one offset by name. -/
theorem precedes_iff {a b : Marker} :
    a.precedes b ↔ toLex (a.offset, a.name) < toLex (b.offset, b.name) := by
  rw [Prod.Lex.toLex_lt_toLex, Marker.precedes, Bool.or_eq_true, Bool.and_eq_true, beq_iff_eq,
    decide_eq_true_iff, Text.precedes_iff]

/-- Placing a marker among others only changes their order. -/
theorem place_perm (m : Marker) (as : List Marker) : (place m as).Perm (m :: as) := by
  induction as with
  | nil => exact .refl _
  | cons a as ih =>
    rw [place]
    split
    · exact (ih.cons a).trans (.swap m a as)
    · exact .refl _

/-- A marker is placed in order among those with other names. -/
theorem pairwise_place {as : List Marker} (h : as.Pairwise fun a b => a.precedes b)
    (hname : ∀ a ∈ as, a.name ≠ m.name) : (place m as).Pairwise fun a b => a.precedes b := by
  induction as with
  | nil => exact .cons nofun .nil
  | cons a as ih =>
    obtain ⟨hfirst, hrest⟩ := List.pairwise_cons.mp h
    rw [place]
    split
    · rename_i hlt
      refine .cons (fun b hb => ?_) (ih hrest fun b hb => hname b (List.mem_cons_of_mem a hb))
      rcases List.mem_cons.mp ((place_perm m as).mem_iff.mp hb) with rfl | hb
      · exact hlt
      · exact hfirst b hb
    · rename_i hnot
      have hlt : m.precedes a := by
        rw [precedes_iff] at hnot ⊢
        refine lt_of_le_of_ne (not_lt.mp hnot) fun heq => hname a List.mem_cons_self ?_
        exact (congrArg (fun key => (ofLex key).2) heq).symm
      refine .cons (fun b hb => ?_) h
      rcases List.mem_cons.mp hb with rfl | hb
      · exact hlt
      · exact precedes_iff.mpr ((precedes_iff.mp hlt).trans (precedes_iff.mp (hfirst b hb)))

/-- Adding markers whose names are new and differ adds each once, in order. -/
theorem foldl_insert {start : Markers} (hnames : ((start.toList ++ ms).map Marker.name).Nodup)
    (hstart : start.toList.Pairwise fun a b => a.precedes b) :
    (ms.foldl insert start).toList.Perm (start.toList ++ ms) ∧
      (ms.foldl insert start).toList.Pairwise fun a b => a.precedes b := by
  induction ms generalizing start with
  | nil => exact ⟨by rw [List.append_nil]; exact .refl _, hstart⟩
  | cons m ms ih =>
    have hnew : ∀ a ∈ start.toList, a.name ≠ m.name := by
      rw [List.map_append, List.map_cons] at hnames
      intro a ha heq
      exact List.disjoint_of_nodup_append hnames (List.mem_map_of_mem ha)
        (heq ▸ List.mem_cons_self)
    have hkept : start.toList.filter (fun a => a.name != m.name) = start.toList :=
      List.filter_eq_self.mpr fun a ha => bne_iff_ne.mpr (hnew a ha)
    have hplaced : (start.insert m).toList = place m start.toList := by
      rw [insert, hkept]
    have hperm : ((start.insert m).toList ++ ms).Perm (start.toList ++ m :: ms) := by
      rw [hplaced]
      exact ((place_perm m _).append_right ms).trans List.perm_middle.symm
    obtain ⟨hall, hordered⟩ := ih ((hperm.map Marker.name).nodup_iff.mpr hnames)
      (hplaced ▸ pairwise_place hstart hnew)
    exact ⟨hall.trans hperm, hordered⟩

/-- Where no two markers have the same name, each is found under its name. -/
theorem get?_eq_some_iff {markers : Markers} (h : (markers.toList.map Marker.name).Nodup)
    {name : Text} : markers.get? name = some offset ↔ ⟨name, offset⟩ ∈ markers.toList := by
  rw [get?, Option.map_eq_some_iff]
  constructor
  · rintro ⟨m, hfind, rfl⟩
    have hname := List.find?_some hfind
    obtain rfl := beq_iff_eq.mp hname
    exact List.mem_of_find?_eq_some hfind
  · intro hmem
    cases hfind : markers.toList.find? fun m => m.name == name with
    | none => exact absurd (beq_self_eq_true name) (List.find?_eq_none.mp hfind _ hmem)
    | some m =>
      have hname := List.find?_some hfind
      obtain rfl := List.inj_on_of_nodup_map h (List.mem_of_find?_eq_some hfind) hmem
        (beq_iff_eq.mp hname)
      exact ⟨_, rfl, rfl⟩

/-- **Markers are taken out as they were put in.** Where a text has no opener of a marker, and
markers with different names are written into it, each at a place of the text and those at one place
in any order, taking the markers out gives back the text; each name stands where it was put, no
other name is there, and the markers are listed by offset and then by name. -/
theorem extract_mark (hplain : hasPart opener text = false) (hnames : ∀ m ∈ ms, isName m.name)
    (hdistinct : (ms.map Marker.name).Nodup) (hplaces : ∀ m ∈ ms, IsBoundary m.offset text) :
    (extract (mark ms text)).1 = text ∧
      (∀ name offset, (extract (mark ms text)).2.get? name = some offset ↔ ⟨name, offset⟩ ∈ ms) ∧
      (extract (mark ms text)).2.toList.Perm ms ∧
      (extract (mark ms text)).2.toList.Pairwise fun a b =>
        a.offset < b.offset ∨ a.offset = b.offset ∧ a.name < b.name := by
  have hextract : extractFrom 0 ([] ++ mark ms text) = ([] ++ text, metFrom ms 0 text) :=
    extractFrom_mark hnames rfl hplain
  rw [List.nil_append, List.nil_append] at hextract
  have hmet := metFrom_perm (List.Nodup.of_map Marker.name hdistinct) hplaces
  have hnew : ((empty.toList ++ metFrom ms 0 text).map Marker.name).Nodup :=
    (hmet.map Marker.name).nodup_iff.mpr hdistinct
  obtain ⟨hperm, hordered⟩ := foldl_insert hnew .nil
  have hlisted : (ofList (metFrom ms 0 text)).toList.Perm ms := hperm.trans hmet
  have hnodup : ((ofList (metFrom ms 0 text)).toList.map Marker.name).Nodup :=
    (hlisted.map Marker.name).nodup_iff.mpr hdistinct
  have hmarkers : (extract (mark ms text)).2 = ofList (metFrom ms 0 text) := by
    rw [extract, hextract]
  rw [hmarkers]
  refine ⟨by rw [extract, hextract], fun name offset => ?_, hlisted, hordered.imp fun h => ?_⟩
  · rw [get?_eq_some_iff hnodup]
    exact hlisted.mem_iff
  · exact Prod.Lex.toLex_lt_toLex.mp (precedes_iff.mp h)

/-- Two markers in front of `^##é#`, one on each side of the second number sign, and one at the end
are taken out again. -/
theorem extract_mark_seams :
    let text : Text := ['^', '#', '#', 'é', '#']
    let ms : List Marker := [⟨['b'], 0⟩, ⟨['a'], 0⟩, ⟨['é', '_'], 6⟩, ⟨['d'], 3⟩, ⟨['c'], 2⟩]
    (hasPart opener text = false ∧ (∀ m ∈ ms, isName m.name) ∧ (ms.map Marker.name).Nodup ∧
      ∀ m ∈ ms, IsBoundary m.offset text) ∧
    mark ms text = "#^b^##^a^#^##^c^###^d^#é##^é_^#".toList ∧
    (extract (mark ms text)).1 = text ∧ (extract (mark ms text)).2.get? ['c'] = some 2 := by
  intro text ms
  have hplain : hasPart opener text = false := by decide
  have hnames : ∀ m ∈ ms, isName m.name := by decide +kernel
  have hdistinct : (ms.map Marker.name).Nodup := by decide
  have hcuts : ∀ m ∈ ms, (cutBytes m.offset text).isSome := by decide
  have hplaces : ∀ m ∈ ms, IsBoundary m.offset text := by
    intro m hm
    obtain ⟨⟨a, b⟩, hcut⟩ := Option.isSome_iff_exists.mp (hcuts m hm)
    obtain ⟨happend, hlen⟩ := eq_of_cutBytes hcut
    exact ⟨a, b, happend.symm, hlen⟩
  obtain ⟨htext, hget, -⟩ := extract_mark hplain hnames hdistinct hplaces
  exact ⟨⟨hplain, hnames, hdistinct, hplaces⟩, by decide, htext, (hget _ _).mpr (by decide)⟩

end Markers

end SwiftTree
