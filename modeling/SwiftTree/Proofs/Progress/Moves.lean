import SwiftTree.Proofs.Progress

/-!
# Rules that move on

Most rules meet their condition for a simple reason, and this module turns that reason into a small
calculus. `Parser.Moves` says of a rule that from certain tokens it ends onward of them, and takes
something if its answer says so, and that until it has taken something it calls no goal at a certain
place in the order or behind it. Then any goal may follow (`Moves.andThen`). Rules are put together
from steps that move on (`Moves.seq`, `Moves.branch`, …) just as they are written.

A rule is `Steady` when it may also do nothing, and `Takes` when it takes something.
-/

namespace SwiftTree.Grammar

namespace Ahead

theorem ne_nil_of_isAt {k : Kind} {ts : Ahead} (hk : k ≠ .endOfFile) (h : ts.isAt k) :
    ts ≠ [] := by
  rintro rfl
  exact hk (beq_iff_eq.mp h).symm

/-- A token that can be taken is there if it is seen. -/
theorem cons_of_isAt {k : Kind} {ts : Ahead} (hk : k.isSolid) (h : ts.isAt k) :
    ∃ x us, x.kind = k ∧ ts = x :: us := by
  obtain ⟨x, us, rfl⟩ :=
    List.exists_cons_of_ne_nil (ne_nil_of_isAt (Kind.ne_endOfFile_of_isSolid hk) h)
  exact ⟨x, us, beq_iff_eq.mp h, rfl⟩

theorem ne_nil_of_isWord {s : String} {ts : Ahead} (h : ts.isWord s) : ts ≠ [] := by
  simp only [isWord, Bool.and_eq_true] at h
  exact ne_nil_of_isAt (by decide) h.1

theorem ne_nil_of_isOperator {ts : Ahead} (h : ts.kind.isOperator) : ts ≠ [] := by
  rintro rfl
  cases h

theorem ne_nil_of_isOperatorFrom {c : Char} {ts : Ahead} (h : ts.isOperatorFrom c) : ts ≠ [] := by
  simp only [isOperatorFrom, Bool.and_eq_true] at h
  exact ne_nil_of_isOperator h.1

/-- A word stands only where a token does. -/
theorem ne_nil_of_isKeywordWord {k : Kind} {ts : Ahead} (h : ts.isKeywordWord k) : ts ≠ [] := by
  rcases e : k.fixedText with _ | s
  · rw [isKeywordWord, e] at h
    cases h
  · rw [isKeywordWord, e] at h
    exact ne_nil_of_isWord h

end Ahead

namespace Parser

/-- From tokens that pass the test, the rule ends onward, and takes as many bytes as its answer
promises. Until it has taken some, it only calls goals below the given place in the order. -/
def Moves {α : Type} (test : Ahead → Prop) (rank : Nat) (gain : α → Nat) (p : Parser α) : Prop :=
  ∀ start r ts, test ts → start.Allows r rank ts →
    p.wp start r ts fun a us => ts.Onward us ∧ us.left + gain a ≤ ts.left

/-- The rule does nothing, or takes something. -/
abbrev Steady {α : Type} (test : Ahead → Prop) (rank : Nat) (p : Parser α) : Prop :=
  p.Moves test rank fun _ => 0

/-- The rule takes something. -/
abbrev Takes {α : Type} (test : Ahead → Prop) (rank : Nat) (p : Parser α) : Prop :=
  p.Moves test rank fun _ => 1

/-- The rule takes something when it answers `true`. -/
abbrev TakesIf (test : Ahead → Prop) (rank : Nat) (p : Parser Bool) : Prop :=
  p.Moves test rank Bool.toNat

theorem wp_eat {k : Kind} {start : Ahead} {r : Nat} {ts : Ahead} {post : Bool → Ahead → Prop} :
    (eat k).wp start r ts post = if ts.isAt k then post true ts.tail else post false ts := by
  show Parser.wp start r (if ts.isAt k then _ else _) ts _ = _
  split <;> rfl

theorem wp_eatWord {k : Kind} {hk : k.isSolid} {start : Ahead} {r : Nat} {ts : Ahead}
    {post : Bool → Ahead → Prop} : (eatWord k hk).wp start r ts post =
      if ts.isKeywordWord k then post true ts.tail else post false ts := by
  show Parser.wp start r (if ts.isKeywordWord k then _ else _) ts _ = _
  split <;> rfl

namespace Moves

variable {α β : Type} {test : Ahead → Prop} {rank : Nat} {gain : α → Nat}

/-- A rule that moves on does so from fewer tokens, and with less to promise. -/
theorem mono {test' : Ahead → Prop} {gain' : α → Nat} {p : Parser α} (h : p.Moves test rank gain)
    (ht : ∀ ts, test' ts → test ts) (hg : ∀ a, gain' a ≤ gain a) : p.Moves test' rank gain' := by
  intro start r ts hts hallow
  refine wp_mono (h start r ts (ht ts hts) hallow) ?_
  rintro a us ⟨hus, hgain⟩
  exact ⟨hus, Nat.le_trans (Nat.add_le_add_left (hg a) _) hgain⟩

/-- What takes something leaves no more than there was. -/
theorem steady {p : Parser α} (h : p.Moves test rank gain) : p.Steady test rank :=
  h.mono (fun _ h => h) fun _ => Nat.zero_le _

/-- What takes something takes any number of bytes up to one. -/
theorem upTo {p : Parser α} {n : Nat} (h : p.Takes test rank) (hn : n ≤ 1) :
    p.Moves test rank fun _ => n := h.mono (fun _ h => h) fun _ => hn

/-- No tokens pass the test. -/
theorem never {p : Parser α} (h : ∀ ts, ¬test ts) : p.Moves test rank gain :=
  fun _ _ ts hts => absurd hts (h ts)

/-- A step that takes nothing. -/
theorem still {p : Parser α} {a : α} (hp : ∀ start r ts post, p.wp start r ts post = post a ts)
    (h : gain a = 0) : p.Moves test rank gain := by
  intro start r ts _ _
  rw [hp, h]
  exact ⟨.refl ts, Nat.le_refl _⟩

/-- An answer that promises nothing. -/
theorem answer {a : α} (h : gain a = 0) : (Pure.pure a : Parser α).Moves test rank gain :=
  still (fun _ _ _ _ => rfl) h

theorem pure (a : α) : (Pure.pure a : Parser α).Steady test rank := answer rfl

/-- One rule behind another. Behind what takes something the order does not matter. -/
theorem bind {first : Parser α} {next : α → Parser β} {rank' : α → Nat} {gain' : α → β → Nat}
    {total : β → Nat} (h : first.Moves test rank gain)
    (hnext : ∀ a, (next a).Moves (fun _ => True) (rank' a) (gain' a))
    (hrank : ∀ a, rank' a ≤ rank ∨ 0 < gain a) (htotal : ∀ a b, total b ≤ gain a + gain' a b) :
    (first >>= next).Moves test rank total := by
  intro start r ts hts hallow
  rw [wp_bind]
  refine wp_mono (h start r ts hts hallow) ?_
  rintro a us ⟨hus, hgain⟩
  have hallow' : start.Allows r (rank' a) us := by
    rcases hrank a with hle | hpos
    · exact (hallow.onward hus).mono hle
    · exact hallow.of_lt (by omega)
  refine wp_mono (hnext a start r us trivial hallow') ?_
  rintro b vs ⟨hvs, hgain'⟩
  have := htotal a b
  exact ⟨hus.trans hvs, by omega⟩

/-- A rule behind one that may have taken nothing. It is still bound by the place in the order,
since nothing may have been taken before. -/
theorem seq {first : Parser α} {next : α → Parser β} {total : β → Nat}
    (h : first.Steady test rank) (hnext : ∀ a, (next a).Moves (fun _ => True) rank total) :
    (first >>= next).Moves test rank total :=
  bind h hnext (fun _ => .inl (Nat.le_refl _)) fun _ _ => Nat.le_add_left _ _

/-- A rule that may do nothing behind one that moves on. -/
theorem thenSteady {first : Parser α} {next : α → Parser β} {n : Nat}
    (h : first.Moves test rank fun _ => n) (hnext : ∀ a, (next a).Steady (fun _ => True) rank) :
    (first >>= next).Moves test rank fun _ => n :=
  bind h hnext (fun _ => .inl (Nat.le_refl _)) fun _ _ => Nat.le_refl _

/-- A rule behind one that has taken something can call any goal, for then there is less to read
than at the start. -/
theorem andThen {first : Parser α} {next : α → Parser β} (h : first.Takes test rank)
    (hnext : ∀ a, (next a).Steady (fun _ => True) Goal.top) : (first >>= next).Takes test rank :=
  bind h hnext (fun _ => .inr Nat.one_pos) fun _ _ => Nat.le_refl _

/-- The same, when it does not matter that something was taken. -/
theorem behind {first : Parser α} {next : α → Parser β} (h : first.Takes test rank)
    (hnext : ∀ a, (next a).Steady (fun _ => True) Goal.top) : (first >>= next).Steady test rank :=
  (andThen h hnext).steady

/-- A rule that takes something at least where the one before it has done nothing. -/
theorem thenTakes {first : Parser α} {next : α → Parser β} (h : first.Steady test rank)
    (hnext : ∀ a, (next a).Takes test rank) (hany : ∀ a, (next a).Steady (fun _ => True) Goal.top) :
    (first >>= next).Takes test rank := by
  intro start r ts hts hallow
  rw [wp_bind]
  refine wp_mono (h start r ts hts hallow) ?_
  rintro a us ⟨rfl | hus, -⟩
  · exact hnext a start r us hts hallow
  · refine wp_mono (hany a start r us trivial (hallow.of_lt hus)) ?_
    rintro b vs ⟨hvs, hgain⟩
    have hlt := Nat.lt_of_le_of_lt hgain hus
    exact ⟨.inr hlt, hlt⟩

/-- A rule that takes something, and then answers `true`. -/
theorem thenTrue {p : Parser Unit} (h : p.Takes test rank) :
    (p >>= fun _ => Pure.pure true).TakesIf test rank :=
  bind h (fun _ => pure true) (fun _ => .inl (Nat.le_refl _)) fun _ b => Bool.toNat_le b

/-- A rule behind one whose answer says whether it has taken something. -/
theorem andThenIf {first : Parser Bool} {next : Bool → Parser β} {total : β → Nat}
    (h : first.TakesIf test rank)
    (htrue : (next true).Moves (fun _ => True) Goal.top fun b => total b - 1)
    (hfalse : (next false).Moves (fun _ => True) rank total) :
    (first >>= next).Moves test rank total := by
  intro start r ts hts hallow
  rw [wp_bind]
  refine wp_mono (h start r ts hts hallow) ?_
  rintro (_ | _) us ⟨hus, hgain⟩
  · refine wp_mono (hfalse start r us trivial (hallow.onward hus)) ?_
    rintro b vs ⟨hvs, hgain'⟩
    exact ⟨hus.trans hvs, Nat.le_trans hgain' hus.le⟩
  · have hlt : us.left < ts.left := hgain
    refine wp_mono (htrue start r us trivial (hallow.of_lt hlt)) ?_
    rintro b vs ⟨hvs, hgain'⟩
    refine ⟨hus.trans hvs, ?_⟩
    simp only at hgain'
    omega

/-- A rule that depends on a look at the tokens ahead. -/
theorem look {f : Ahead → α} {next : α → Parser β} {total : β → Nat}
    (h : ∀ a, (next a).Moves (fun ts => test ts ∧ f ts = a) rank total) :
    (Grammar.look f >>= next).Moves test rank total :=
  fun start r ts hts hallow => h (f ts) start r ts ⟨hts, rfl⟩ hallow

/-- One of two rules, by a test of the tokens ahead. -/
theorem branch {f : Ahead → Bool} {p q : Parser α}
    (hp : p.Moves (fun ts => test ts ∧ f ts = true) rank gain)
    (hq : q.Moves (fun ts => test ts ∧ f ts = false) rank gain) :
    (Grammar.look f >>= fun b => if b then p else q).Moves test rank gain := by
  refine look ?_
  rintro (_ | _)
  · exact hq
  · exact hp

/-- A rule that is followed under a test. -/
theorem ifAhead {f : Ahead → Bool} {p : Parser Unit}
    (h : p.Steady (fun ts => test ts ∧ f ts = true) rank) :
    (Grammar.ifAhead f p).Steady test rank := branch h (pure ())

/-- A rule that is followed under a test, and another one behind it: one of them takes something. -/
theorem ifAheadThen {f : Ahead → Bool} {p : Parser Unit} {next : Unit → Parser β}
    (h : p.Takes (fun ts => test ts ∧ f ts = true) rank)
    (hnext : (next ()).Takes (fun ts => test ts ∧ f ts = false) rank)
    (hany : (next ()).Steady (fun _ => True) Goal.top) :
    (Grammar.ifAhead f p >>= next).Takes test rank := by
  intro start r ts hts hallow
  cases hf : f ts with
  | true =>
    have hp := andThen h (fun _ => hany) start r ts ⟨hts, hf⟩ hallow
    show Parser.wp start r (if f ts then _ else _) ts _
    rwa [hf]
  | false =>
    show Parser.wp start r (if f ts then _ else _) ts _
    rw [hf]
    exact hnext start r ts ⟨hts, hf⟩ hallow

/-- A rule that is followed under a condition. -/
theorem onlyIf {b : Bool} {p : Parser Unit} (h : p.Steady test rank) :
    (Grammar.onlyIf b p).Steady test rank := by
  cases b
  · exact pure ()
  · exact h

theorem node {kind : Kind} {p : Parser α} {hk : kind.isConstruct} (h : p.Moves test rank gain) :
    (Grammar.node kind p hk).Moves test rank gain := h

theorem nodeBy {p : Parser (Construct × α)} (h : p.Moves test rank fun a => gain a.2) :
    (Grammar.nodeBy p).Moves test rank gain := h

theorem nodeIf {kind : Kind} {p : Parser Bool} {hk : kind.isConstruct}
    (h : p.TakesIf test rank) : (Grammar.nodeIf kind p hk).TakesIf test rank := h

theorem enclose {kind : Kind} {p : Parser α} {hk : kind.isConstruct}
    (h : p.Moves test rank gain) : (Grammar.enclose kind p hk).Moves test rank gain := h

theorem emptyNode {kind : Kind} {hk : kind.isConstruct} :
    (Grammar.emptyNode kind hk).Steady test rank := node (pure ())

/-! ### Steps -/

theorem advance : Grammar.advance.Steady test rank := fun _ _ ts _ _ =>
  ⟨.tail ts, ts.left_tail_le⟩

theorem advance_takes (h : ∀ ts, test ts → ts ≠ []) : Grammar.advance.Takes test rank := by
  intro _ _ ts hts _
  exact ⟨.tail ts, Ahead.left_tail_lt (h ts hts)⟩

theorem advanceAs_takes {k : Kind} {hk : k.isSolid} (h : ∀ ts, test ts → ts ≠ []) :
    (Grammar.advanceAs k hk).Takes test rank := advance_takes h

/-- Taking several tokens leads onward, one after the other. -/
theorem advanceBy (n : Nat) : (Grammar.advanceBy n).Steady test rank := by
  induction n generalizing test with
  | zero => exact pure ()
  | succ n ih => exact seq advance fun _ => ih

theorem advanceBy_takes {n : Nat} (h : ∀ ts, test ts → ts ≠ []) :
    (Grammar.advanceBy (n + 1)).Takes test rank :=
  andThen (advance_takes h) fun _ => advanceBy n

theorem missingSpelled {k : Kind} {spelling : Text} {hk : k.isSolid} :
    (Grammar.missingSpelled k spelling hk).Steady test rank := still (fun _ _ _ _ => rfl) rfl

theorem missing {k : Kind} {hk : k.isSolid} : (Grammar.missing k hk).Steady test rank :=
  missingSpelled

theorem placeholder {k : Kind} {hk : k.isMissingNode} :
    (Grammar.placeholder k hk).Steady test rank := still (fun _ _ _ _ => rfl) rfl

theorem unexpected (n : Nat) : (Grammar.unexpected n).Steady test rank := fun _ _ ts _ _ =>
  ⟨.drop (n + 1) ts, ts.left_drop_le (n + 1)⟩

theorem override {pos : Nat} {diagnostic : Nat → Diagnostic} :
    (Grammar.override pos diagnostic).Steady test rank := still (fun _ _ _ _ => rfl) rfl

theorem unexpected_takes (n : Nat) (h : ∀ ts, test ts → ts ≠ []) :
    (Grammar.unexpected n).Takes test rank := by
  intro _ _ ts hts _
  exact ⟨.drop (n + 1) ts, Ahead.left_drop_lt (Nat.succ_pos n) (h ts hts)⟩

theorem eat {k : Kind} (hk : k ≠ .endOfFile) : (Grammar.eat k).TakesIf test rank :=
  branch (thenTrue (advance_takes fun _ h => Ahead.ne_nil_of_isAt hk h.2)) (answer rfl)

theorem skip {k : Kind} : (Grammar.skip k).Steady test rank := ifAhead advance

/-- A rule behind a token that is taken if it passes a test. -/
theorem takenThen {f : Ahead → Bool} {first : Parser Bool} {next : Bool → Parser β}
    {total : β → Nat} (hf : ∀ ts, f ts → ts ≠ [])
    (hwp : ∀ start r ts post, first.wp start r ts post =
      if f ts then post true ts.tail else post false ts)
    (htrue : (next true).Moves (fun _ => True) Goal.top fun b => total b - 1)
    (hfalse : (next false).Moves (fun ts => test ts ∧ f ts = false) rank total) :
    (first >>= next).Moves test rank total := by
  intro start r ts hts hallow
  rw [wp_bind, hwp]
  split
  · rename_i ha
    have hlt := Ahead.left_tail_lt (hf ts ha)
    refine wp_mono (htrue start r ts.tail trivial (hallow.of_lt hlt)) ?_
    rintro b vs ⟨hvs, hgain⟩
    refine ⟨.trans (.tail ts) hvs, ?_⟩
    simp only at hgain
    omega
  · rename_i ha
    exact hfalse start r ts ⟨hts, eq_false_of_ne_true ha⟩ hallow

theorem eatThen {k : Kind} {next : Bool → Parser β} {total : β → Nat} (hk : k ≠ .endOfFile)
    (htrue : (next true).Moves (fun _ => True) Goal.top fun b => total b - 1)
    (hfalse : (next false).Moves (fun ts => test ts ∧ ts.isAt k = false) rank total) :
    (Grammar.eat k >>= next).Moves test rank total :=
  takenThen (fun _ => Ahead.ne_nil_of_isAt hk) (fun _ _ _ _ => wp_eat) htrue hfalse

theorem eatWordThen {k : Kind} {hk : k.isSolid} {next : Bool → Parser β} {total : β → Nat}
    (htrue : (next true).Moves (fun _ => True) Goal.top fun b => total b - 1)
    (hfalse : (next false).Moves (fun ts => test ts ∧ ts.isKeywordWord k = false) rank total) :
    (Grammar.eatWord k hk >>= next).Moves test rank total :=
  takenThen (fun _ => Ahead.ne_nil_of_isKeywordWord) (fun _ _ _ _ => wp_eatWord) htrue hfalse

/-- Eating a token that is there takes it. -/
theorem eat_takes {k : Kind} (hk : k ≠ .endOfFile) (h : ∀ ts, test ts → ts.isAt k) :
    (Grammar.eat k).Takes test rank := by
  intro _ _ ts hts _
  rw [wp_eat, if_pos (h ts hts)]
  exact ⟨.tail ts, Ahead.left_tail_lt (Ahead.ne_nil_of_isAt hk (h ts hts))⟩

theorem eatWord {k : Kind} {hk : k.isSolid} : (Grammar.eatWord k hk).TakesIf test rank :=
  branch (thenTrue (advanceAs_takes fun _ h => Ahead.ne_nil_of_isKeywordWord h.2))
    (answer rfl)

/-- An expected token is taken, or the answer says that it is missing. -/
theorem expect {k : Kind} {hk : k.isSolid} : (Grammar.expect k hk).TakesIf test rank := by
  refine andThenIf (eat (Kind.ne_endOfFile_of_isSolid hk)) ?_ ?_
  · exact answer rfl
  · exact seq missing fun _ => answer rfl

theorem require {k : Kind} {hk : k.isSolid} : (Grammar.require k hk).Steady test rank :=
  seq expect.steady fun _ => pure ()

/-- A token that is required is taken where it stands. -/
theorem require_takes {k : Kind} {hk : k.isSolid} (h : ∀ ts, test ts → ts.isAt k) :
    (Grammar.require k hk).Takes test rank := by
  intro start r ts hts _
  have ha := h ts hts
  show Parser.wp start r (if ts.isAt k then _ else _) ts _
  rw [if_pos ha]
  exact ⟨.tail ts, Ahead.left_tail_lt (Ahead.ne_nil_of_isAt (Kind.ne_endOfFile_of_isSolid hk) ha)⟩

/-- A goal is reached if it stands in the order of calls, and takes something where it says so. -/
theorem call {g : Goal} {n : Nat} (hr : ∀ ts, test ts → g.rank ts < rank) (hn : n ≤ 1)
    (h : ∀ ts, test ts → 0 < n → g.takes ts) : (Grammar.call g).Moves test rank fun _ => n := by
  intro start r ts hts hallow
  refine ⟨hallow.mono (hr ts hts), ?_⟩
  intro a us hus
  refine ⟨hus.onward, ?_⟩
  rcases Nat.eq_zero_or_pos n with rfl | hpos
  · exact hus.onward.le
  · have := hus.lt (h ts hts hpos)
    show us.left + n ≤ ts.left
    omega

/-- Behind what takes something any goal can be called. -/
theorem callAny {g : Goal} : (Grammar.call g).Steady test Goal.top :=
  call (fun ts _ => g.rank_lt_top ts) (Nat.zero_le 1) fun _ _ h => absurd h (Nat.lt_irrefl 0)

theorem visit {g : Goal} {n : Nat} (hr : ∀ ts, test ts → g.rank ts < rank) (hn : n ≤ 1)
    (h : ∀ ts, test ts → 0 < n → g.takes ts) : (Grammar.visit g).Moves test rank fun _ => n :=
  thenSteady (call hr hn h) fun _ => pure ()

theorem visit_steady {g : Goal} (hr : ∀ ts, test ts → g.rank ts < rank) :
    (Grammar.visit g).Steady test rank :=
  visit hr (Nat.zero_le 1) fun _ _ h => absurd h (Nat.lt_irrefl 0)

theorem visit_takes {g : Goal} (hr : ∀ ts, test ts → g.rank ts < rank)
    (h : ∀ ts, test ts → g.takes ts) : (Grammar.visit g).Takes test rank :=
  visit hr (Nat.le_refl 1) fun ts hts _ => h ts hts

theorem visitAny {g : Goal} : (Grammar.visit g).Steady test Goal.top := seq callAny fun _ => pure ()

/-! ### Loops -/

/-- A loop whose rounds take something. -/
theorem repeatUntil {body : Parser (Option α)}
    (h : body.Moves (fun _ => True) rank fun a => a.isNone.toNat) :
    (Grammar.repeatUntil body).Steady test rank := by
  intro start r ts _ hallow
  refine ⟨hallow.left_le, ?_⟩
  intro us hus
  refine wp_mono (h start r us trivial (hallow.onward hus)) ?_
  rintro (_ | a) vs ⟨hvs, hgain⟩
  · exact hgain
  · exact ⟨hus.trans hvs, (hus.trans hvs).le⟩

/-- A loop moves on if each round takes something unless it is the last one. So it has no more
rounds than there are bytes left. -/
theorem repeatWhile {body : Parser Bool} (h : body.TakesIf (fun _ => True) rank) :
    (Grammar.repeatWhile body).Steady test rank := by
  refine repeatUntil fun start r ts hts hallow => ?_
  rw [wp_bind]
  refine wp_mono (h start r ts hts hallow) ?_
  rintro (_ | _) us hus
  · exact hus
  · exact hus

/-- A loop takes something if its first round does. -/
theorem repeatWhile_takes {body : Parser Bool} (h : body.TakesIf (fun _ => True) rank)
    (hfirst : body.Takes test rank) : (Grammar.repeatWhile body).Takes test rank := by
  intro start r ts hts hallow
  refine ⟨hallow.left_le, ?_⟩
  rintro us (rfl | hus)
  · rw [wp_bind]
    refine wp_mono (hfirst start r us hts hallow) ?_
    rintro (_ | _) vs hvs
    · exact hvs
    · exact hvs.2
  · rw [wp_bind]
    refine wp_mono (h start r us trivial (hallow.of_lt hus)) ?_
    rintro (_ | _) vs ⟨hvs, hgain⟩
    · have hlt := Nat.lt_of_le_of_lt hgain hus
      exact ⟨.inr hlt, hlt⟩
    · exact hgain

/-- A loop ends where its test fails for the first time. -/
theorem wp_whileAhead {f : Ahead → Bool} {p : Parser Unit} {start : Ahead} {r : Nat} {ts : Ahead}
    (h : p.Takes (fun ts => f ts = true) rank) (hallow : start.Allows r rank ts) :
    (Grammar.whileAhead f p).wp start r ts fun _ us => ts.Onward us ∧ f us = false := by
  refine ⟨hallow.left_le, ?_⟩
  intro us hus
  show Parser.wp start r (if f us then (p >>= fun _ => Pure.pure true) else Pure.pure false) us _
  split
  · rename_i hf
    exact wp_mono (p := p) (h start r us hf (hallow.onward hus)) fun _ vs hvs => hvs.2
  · rename_i hf
    exact ⟨hus, eq_false_of_ne_true hf⟩

theorem whileAhead {f : Ahead → Bool} {p : Parser Unit}
    (h : p.Takes (fun ts => f ts = true) rank) : (Grammar.whileAhead f p).Steady test rank := by
  intro start r ts _ hallow
  exact wp_mono (wp_whileAhead h hallow) fun _ us hus => ⟨hus.1, hus.1.le⟩

/-- A loop that starts with a round takes something. -/
theorem whileAhead_takes {f : Ahead → Bool} {p : Parser Unit}
    (h : p.Takes (fun ts => f ts = true) rank) (ht : ∀ ts, test ts → f ts = true) :
    (Grammar.whileAhead f p).Takes test rank := by
  intro start r ts hts hallow
  refine wp_mono (wp_whileAhead h hallow) ?_
  rintro _ us ⟨rfl | hus, hf⟩
  · exact absurd (ht us hts) (ne_true_of_eq_false hf)
  · exact ⟨.inr hus, hus⟩

/-- A loop, and a rule behind it: one of them takes something. -/
theorem whileThen {f : Ahead → Bool} {p : Parser Unit} {next : Unit → Parser β}
    (h : p.Takes (fun ts => f ts = true) rank)
    (hnext : (next ()).Takes (fun ts => test ts ∧ f ts = false) rank)
    (hany : (next ()).Steady (fun _ => True) Goal.top) :
    (Grammar.whileAhead f p >>= next).Takes test rank := by
  intro start r ts hts hallow
  rw [wp_bind]
  refine wp_mono (wp_whileAhead h hallow) ?_
  rintro _ us ⟨rfl | hus, hf⟩
  · exact hnext start r us ⟨hts, hf⟩ hallow
  · refine wp_mono (hany start r us trivial (hallow.of_lt hus)) ?_
    rintro b vs ⟨hvs, hgain⟩
    have hlt := Nat.lt_of_le_of_lt hgain hus
    exact ⟨.inr hlt, hlt⟩

/-- A list whose elements may do nothing. Each comma is taken. -/
theorem commaList {kind : Kind} {ends : Ahead → Bool} {p : Parser Unit} {hk : kind.isConstruct}
    (h : p.Steady (fun _ => True) rank) : (Grammar.commaList kind ends p hk).Steady test rank := by
  refine repeatWhile (andThenIf (node (seq h fun _ => eat (by decide))) ?_ ?_)
  · exact look fun b => answer (by cases b <;> rfl)
  · exact look fun b => answer rfl

end Moves

end Parser

end SwiftTree.Grammar
