import SwiftTree.Proofs.Sight

/-!
# Nodes where they stand

What a rule decides by the next token, the finished tree can tell of a node and of what comes behind
it. A `Demand` says what is demanded of nodes where they stand, and what the tree of a goal promises
on top of being what the goal gives.

`Parser.meets` is the condition under which the nodes of a rule stand as demanded, if the rule has
an outcome at all. Where a node closes, it may be used that what was read for the node starts with
what was seen when it was opened (`State.Around`). `Parser.sound_of_meets` says what the condition
promises, once for all rules, and `Entry.stands_of_mem_descendants` what that says of the nodes of a
text.
-/

namespace SwiftTree

namespace Grammar

open Green (Stands StandAll sightOf)

/-! ## What is seen of the tokens ahead -/

namespace Ahead

/-- What rules see of the next token. -/
def sight : Ahead → Outlook
  | [] => none
  | x :: _ => x.token.outline.sight

/-- Whether the next token opens a line if a line break leads it. -/
def Led (ts : Ahead) : Prop := ∀ x ∈ ts.head?, x.token.leading.containsNewline → x.atLineStart

/-- Whether the next token opens a line just if a line break leads it. Of all tokens only the first
one of a text need not. -/
def Tells (ts : Ahead) : Prop := ∀ x ∈ ts.head?, x.atLineStart = x.token.leading.containsNewline

theorem Tells.led {ts : Ahead} (h : ts.Tells) : ts.Led := fun x hx hnewline => by
  rw [h x hx, hnewline]

theorem sight_eq (ts : Ahead) :
    ts.sight = Token.sightOf ((ts.map Lexeme.token).map Token.outline) none := by
  cases ts <;> rfl

theorem sight_ne_end {x : Lexeme} : x.token.outline.kind ≠ .endOfFile :=
  Kind.ne_endOfFile_of_isSolid x.solid.2

/-- A kind that rules leave as it is, is seen just where it is. -/
theorem isAt_sight {k : Kind} (hsteady : k.isSteady) (hend : k ≠ .endOfFile) (ts : Ahead) :
    ts.sight.isAt k = ts.isAt k := by
  cases ts with
  | nil => exact (beq_false_of_ne hend.symm).symm
  | cons x us => exact Token.Outline.isAt_sight hsteady hend

/-- A token that does not open a line is seen to go on with it. -/
theorem isOnLine_of_led {ts : Ahead} (h : ts.Led) (hne : ts ≠ []) (hline : ts.atLineStart = false) :
    ts.sight.isOnLine := by
  cases ts with
  | nil => exact absurd rfl hne
  | cons x us =>
    rw [sight, Token.Outline.isOnLine_sight sight_ne_end, Bool.not_eq_true', ← Bool.not_eq_true]
    intro hnewline
    have hstart : x.atLineStart = true := by
      refine h x rfl ?_
      rwa [← Trivia.containsNewline_outline]
    exact Bool.false_ne_true (hline.symm.trans hstart)

/-- A token that opens a line is seen to do so. -/
theorem not_isOnLine_of_tells {ts : Ahead} (h : ts.Tells) (hline : ts.atLineStart) :
    ts.sight.isOnLine = false := by
  cases ts with
  | nil => rfl
  | cons x us =>
    have hnewline : x.token.outline.leading.containsNewline = true := by
      show x.token.leading.outline.containsNewline = true
      rw [Trivia.containsNewline_outline, ← h x rfl]
      exact hline
    rw [sight, Token.Outline.isOnLine_sight sight_ne_end, hnewline]
    rfl

/-- What is known of the line breaks among the tokens that are still to be read, when some may have
been read before. -/
structure Lined (started : Prop) (ts : Ahead) : Prop where
  led : ts.Led
  tail : ∀ x ∈ ts.tail, x.atLineStart = x.token.leading.containsNewline
  head : started → ts.Tells

namespace Lined

variable {started : Prop} {ts : Ahead}

/-- Where no token is left, there is nothing to know. -/
theorem nil : Lined started [] where
  led x hx := absurd hx (Option.not_mem_none x)
  tail := List.forall_mem_nil _
  head _ x hx := absurd hx (Option.not_mem_none x)

theorem mono {started' : Prop} (h : ts.Lined started) (hstarted : started' → started) :
    ts.Lined started' := ⟨h.led, h.tail, fun hs => h.head (hstarted hs)⟩

/-- Behind a token that was read, line breaks are told for what they are. -/
theorem of_tail {x : Lexeme} (h : Lined started (x :: ts)) {started' : Prop} :
    ts.Lined started' := by
  have htells : ts.Tells := fun y hy => h.tail y (List.mem_of_mem_head? hy)
  exact ⟨htells.led, fun y hy => h.tail y (List.mem_of_mem_tail hy), fun _ => htells⟩

/-- Behind at least one token, line breaks are told for what they are, whatever was known before. -/
theorem drop {n : Nat} (h : ts.Lined started) (hn : 0 < n) {started' : Prop} :
    Lined started' (ts.drop n) := by
  induction n generalizing ts started with
  | zero => cases hn
  | succ n ih =>
    cases ts with
    | nil => exact nil
    | cons x ts =>
      rcases Nat.eq_zero_or_pos n with rfl | hn
      · exact h.of_tail
      · have htail : Lined True ts := h.of_tail
        exact ih htail hn

/-- The head of a cut token keeps what leads it, and so its line break; what is behind the cut opens
no line. -/
theorem splitHead {head : SolidKind} {rest : Option SolidKind} (h : ts.Lined started) :
    Lined started (ts.splitHead head rest) := by
  unfold Ahead.splitHead
  split
  · exact nil
  · rename_i x us
    split
    · refine ⟨?_, ?_, fun hs y hy => ?_⟩
      · intro y hy
        obtain rfl := Option.some.inj hy
        exact h.led x rfl
      · rintro y hy
        rcases List.mem_cons.mp hy with rfl | hy
        · rfl
        · exact h.tail y hy
      · obtain rfl := Option.some.inj hy
        exact h.head hs x rfl
    · exact h

/-- Of the tokens of a text, all but the first one open a line just if a line break leads them.
Nothing was read before the first one. -/
theorem ofTokens (endOpensLine : Bool) (pos : Nat) (ts : List Token) (h : ∀ t ∈ ts, t.IsSolid) :
    Lined False (Lexeme.ofTokens endOpensLine pos none ts h) := by
  have hbehind (pos : Nat) (t : Token) (ts : List Token) (h : ∀ t ∈ ts, t.IsSolid) :
      ∀ x ∈ Lexeme.ofTokens endOpensLine pos (some t) ts h,
        x.atLineStart = x.token.leading.containsNewline := by
    induction ts generalizing pos t with
    | nil => exact List.forall_mem_nil _
    | cons u us ih =>
      intro x hx
      rcases List.mem_cons.mp hx with rfl | hx
      · rfl
      · exact ih _ u _ x hx
  refine ⟨?_, ?_, False.elim⟩
  · intro x hx _
    cases ts with
    | nil => cases hx
    | cons t ts =>
      obtain rfl := Option.some.inj hx
      rfl
  · cases ts with
    | nil => exact List.forall_mem_nil _
    | cons t ts => exact hbehind _ t ts _

end Lined

end Ahead

/-! ## The condition for nodes that stand as demanded -/

/-- What is demanded of nodes, and what goals promise. -/
structure Demand where
  /-- of a node: of its kind, its parts, and what comes next -/
  node : Kind → List Green → Outlook → Prop
  /-- of the tree of a goal -/
  goal : Goal → Green → Prop

/-- What is known where a node closes that opened in the state `s`. -/
structure State.Around (s t : State Forest) : Prop where
  /-- what was read for the node is what was seen when it opened -/
  sight : sightOf t.built.reverse t.ahead.sight = s.ahead.sight
  /-- behind a token that was read, line breaks are told for what they are -/
  tells : Green.hasPresentOf t.built → t.ahead.Tells

/-- The condition under which the nodes of a rule, if it has an outcome, stand as demanded. -/
def Parser.meets (d : Demand) :
    {α : Type} → Parser α → State Forest → (α → State Forest → Prop) → Prop
  | _, .pure a, s, post => post a s
  | _, .bind first next, s, post => first.meets d s fun a t => (next a).meets d t post
  | _, .look f, s, post => s.ahead.Led → post (f s.ahead) s
  | _, .take kind, s, post => post () (s.take kind)
  | _, .splitHead head rest, s, post => post () { s with ahead := s.ahead.splitHead head rest }
  | _, .missing kind spelling, s, post =>
    post () { s with built := Assembly.missing kind.1 spelling s.built }
  | _, .placeholder kind, s, post =>
    d.node kind.1 [] s.ahead.sight ∧ post () (s.enter.2.leave s.enter.1 (some kind.1))
  | _, .unexpected more, s, post =>
    (s.ahead ≠ [] → Ahead.Tells (s.ahead.drop (more + 1)) → d.node .unexpected
      ((s.ahead.take (more + 1)).map fun x => .token x.token)
      (Ahead.sight (s.ahead.drop (more + 1)))) ∧
    post () (s.unexpected more)
  | _, .override _ _, s, post => post () s
  | _, .mark body, s, post =>
    body.meets d s.enter.2 fun a t => s.Around t →
      (∀ k ∈ a.1, d.node k.1 t.built.reverse t.ahead.sight) ∧
      post a.2 (t.leave s.enter.1 (a.1.map Subtype.val))
  | _, .enclose kind body, s, post =>
    body.meets d s.precede.2 fun a t => s.Around t →
      d.node kind.1 ((s.precede.1 : List Green × Forest).1 ++ t.built.reverse) t.ahead.sight ∧
      post a (t.leave s.precede.1 (some kind.1))
  | _, .call goal, s, post => ∀ a ts g, goal.Gives s.ahead a ts g → d.goal goal g →
    sightOf [g] ts.sight = s.ahead.sight → post a ⟨ts, g :: s.built⟩
  | _, .repeatUntil body, s, post =>
    ∃ invariant : State Forest → Prop, invariant s ∧ ∀ t, invariant t →
      body.meets d t fun a u => match a with
        | some a => post a u
        | none => invariant u

namespace Parser

variable {d : Demand} {α β : Type}

theorem meets_bind {first : Parser α} {next : α → Parser β} {s : State Forest}
    {post : β → State Forest → Prop} :
    (first >>= next).meets d s post = first.meets d s fun a t => (next a).meets d t post := rfl

/-- The condition for a rule may be weakened in what it demands of the outcome. The proof follows
the operations of rules. -/
theorem meets_mono {p : Parser α} {s : State Forest} {post post' : α → State Forest → Prop}
    (h : p.meets d s post) (hpost : ∀ a t, post a t → post' a t) : p.meets d s post' := by
  induction p generalizing s with
  | pure a => exact hpost _ _ h
  | bind first next ih_first ih_next => exact ih_first h fun a t h => ih_next a h hpost
  | look f => exact fun hled => hpost _ _ (h hled)
  | take kind => exact hpost _ _ h
  | splitHead head rest => exact hpost _ _ h
  | missing kind spelling => exact hpost _ _ h
  | placeholder kind => exact ⟨h.1, hpost _ _ h.2⟩
  | unexpected more => exact ⟨h.1, hpost _ _ h.2⟩
  | override start diagnostic => exact hpost _ _ h
  | mark body ih => exact ih h fun a t h haround => ⟨(h haround).1, hpost _ _ (h haround).2⟩
  | enclose kind body ih => exact ih h fun a t h haround => ⟨(h haround).1, hpost _ _ (h haround).2⟩
  | call goal => exact fun a ts g hg hgoal hsight => hpost _ _ (h a ts g hg hgoal hsight)
  | repeatUntil body ih =>
    obtain ⟨invariant, hs, hround⟩ := h
    refine ⟨invariant, hs, fun t ht => ih (hround t ht) ?_⟩
    rintro (_ | a) u hu
    · exact hu
    · exact hpost _ _ hu

/-- What is known of a rule can be learnt bit by bit. -/
theorem meets_and {p : Parser α} {s : State Forest} {post post' : α → State Forest → Prop}
    (h : p.meets d s post) (h' : p.meets d s post') :
    p.meets d s fun a t => post a t ∧ post' a t := by
  induction p generalizing s with
  | pure a => exact ⟨h, h'⟩
  | bind first next ih_first ih_next =>
    have hnext := meets_mono (ih_first h h') fun a t ht => ih_next a ht.1 ht.2
    exact hnext
  | look f => exact fun hled => ⟨h hled, h' hled⟩
  | take kind => exact ⟨h, h'⟩
  | splitHead head rest => exact ⟨h, h'⟩
  | missing kind spelling => exact ⟨h, h'⟩
  | placeholder kind => exact ⟨h.1, h.2, h'.2⟩
  | unexpected more => exact ⟨h.1, h.2, h'.2⟩
  | override start diagnostic => exact ⟨h, h'⟩
  | mark body ih =>
    have hboth := meets_mono (ih h h') fun a t ht (haround : s.Around t) =>
      (⟨(ht.1 haround).1, (ht.1 haround).2, (ht.2 haround).2⟩ : _ ∧ _ ∧ _)
    exact hboth
  | enclose kind body ih =>
    have hboth := meets_mono (ih h h') fun a t ht (haround : s.Around t) =>
      (⟨(ht.1 haround).1, (ht.1 haround).2, (ht.2 haround).2⟩ : _ ∧ _ ∧ _)
    exact hboth
  | call goal =>
    exact fun a ts g hg hgoal hsight => ⟨h a ts g hg hgoal hsight, h' a ts g hg hgoal hsight⟩
  | repeatUntil body ih =>
    obtain ⟨invariant, hs, hround⟩ := h
    obtain ⟨invariant', hs', hround'⟩ := h'
    refine ⟨fun t => invariant t ∧ invariant' t, ⟨hs, hs'⟩, fun t ht => ?_⟩
    refine meets_mono (ih (hround t ht.1) (hround' t ht.2)) ?_
    rintro (_ | a) u hu
    · exact hu
    · exact hu

/-- What a rule puts together can be used where its nodes are looked at. -/
theorem meets_and_yields {p : Parser α} {s : State Forest} {post post' : α → State Forest → Prop}
    (h : p.meets d s post) (h' : p.yields s post') :
    p.meets d s fun a t => post a t ∧ post' a t := by
  induction p generalizing s with
  | pure a => exact ⟨h, h'⟩
  | bind first next ih_first ih_next =>
    have hnext := meets_mono (ih_first h h') fun a t ht => ih_next a ht.1 ht.2
    exact hnext
  | look f => exact fun hled => ⟨h hled, h'⟩
  | take kind => exact ⟨h, h'.2⟩
  | splitHead head rest => exact ⟨h, h'.2⟩
  | missing kind spelling => exact ⟨h, h'⟩
  | placeholder kind => exact ⟨h.1, h.2, h'⟩
  | unexpected more => exact ⟨h.1, h.2, h'⟩
  | override start diagnostic => exact ⟨h, h'⟩
  | mark body ih =>
    have hboth := meets_mono (ih h h') fun a t ht (haround : s.Around t) =>
      (⟨(ht.1 haround).1, (ht.1 haround).2, ht.2⟩ : _ ∧ _ ∧ _)
    exact hboth
  | enclose kind body ih =>
    have hboth := meets_mono (ih h h') fun a t ht (haround : s.Around t) =>
      (⟨(ht.1 haround).1, (ht.1 haround).2, ht.2⟩ : _ ∧ _ ∧ _)
    exact hboth
  | call goal => exact fun a ts g hg hgoal hsight => ⟨h a ts g hg hgoal hsight, h' a ts g hg⟩
  | repeatUntil body ih =>
    obtain ⟨invariant, hs, hround⟩ := h
    obtain ⟨invariant', hs', hround'⟩ := h'
    refine ⟨fun t => invariant t ∧ invariant' t, ⟨hs, hs'⟩, fun t ht => ?_⟩
    refine meets_mono (ih (hround t ht.1) (hround' t ht.2)) ?_
    rintro (_ | a) u hu
    · exact hu
    · exact hu

/-- A rule that depends on a look at the tokens ahead. -/
theorem meets_look {f : Ahead → β} {next : β → Parser α} {s : State Forest}
    {post : α → State Forest → Prop} (h : s.ahead.Led → (next (f s.ahead)).meets d s post) :
    (Grammar.look f >>= next).meets d s post := h

/-- One of two rules, by a look at the tokens ahead. -/
theorem meets_branch {f : Ahead → Bool} {p q : Parser α} {s : State Forest}
    {post : α → State Forest → Prop} (hp : s.ahead.Led → f s.ahead = true → p.meets d s post)
    (hq : s.ahead.Led → f s.ahead = false → q.meets d s post) :
    (Grammar.look f >>= fun b => if b then p else q).meets d s post := by
  intro hled
  show Parser.meets d (if f s.ahead then p else q) s post
  cases hf : f s.ahead with
  | true => exact hp hled hf
  | false => exact hq hled hf

/-- A node stands as demanded with what is known where it closes. -/
theorem meets_node {kind : Kind} {body : Parser α} {hk : kind.isConstruct} {s : State Forest}
    {post : α → State Forest → Prop}
    (h : body.meets d s.enter.2 fun a t => s.Around t →
      d.node kind t.built.reverse t.ahead.sight ∧
        post a ⟨t.ahead, .node kind t.built.reverse :: s.built⟩) :
    (Grammar.node kind body hk).meets d s post := by
  have hbody := meets_mono h fun a t ht (haround : s.Around t) =>
    (⟨fun k hk => Option.some.inj hk ▸ (ht haround).1, (ht haround).2⟩ :
      (∀ k ∈ some (⟨kind, hk⟩ : Construct), d.node k.1 t.built.reverse t.ahead.sight) ∧ _)
  exact hbody

theorem meets_emptyNode {kind : Kind} {hk : kind.isConstruct} {s : State Forest}
    {post : Unit → State Forest → Prop} (hnode : d.node kind [] s.ahead.sight)
    (hpost : post () ⟨s.ahead, .node kind [] :: s.built⟩) :
    (Grammar.emptyNode kind hk).meets d s post := meets_node fun _ => ⟨hnode, hpost⟩

/-- The next token is taken if it is of a kind, and otherwise nothing happens. -/
theorem meets_eat {k : Kind} {s : State Forest} {post : Bool → State Forest → Prop}
    (hend : k ≠ .endOfFile)
    (htrue : ∀ x ts, s.ahead = x :: ts → x.kind = k → post true ⟨ts, .token x.token :: s.built⟩)
    (hfalse : s.ahead.isAt k = false → post false s) : (Grammar.eat k).meets d s post := by
  refine meets_branch (fun _ hat => ?_) fun _ => hfalse
  obtain ⟨_ | ⟨x, ts⟩, built⟩ := s
  · exact absurd (beq_iff_eq.mp hat).symm hend
  · exact htrue x ts rfl (beq_iff_eq.mp hat)

/-- A rule that depends on whether a token of a kind was taken, or is missing. -/
theorem meets_expect {k : Kind} {hk : k.isSolid} {p q : Parser α} {s : State Forest}
    {post : α → State Forest → Prop} (h : (Grammar.eat k >>= fun found =>
      if found then p else Grammar.missing k hk >>= fun _ => q).meets d s post) :
    (Grammar.expect k hk >>= fun found => if found then p else q).meets d s post := by
  rw [meets_bind] at h
  have hexpect : (Grammar.eat k).meets d s fun found t => Parser.meets d
      (if found then Pure.pure true else Grammar.missing k hk >>= fun _ => Pure.pure false) t
      fun found u => Parser.meets d (if found then p else q) u post := by
    refine meets_mono h fun found t ht => ?_
    cases found with
    | true => exact ht
    | false => exact ht
  exact hexpect

/-- What a node starts with is what was seen before it. -/
theorem meets_around {kind : Kind} {body : Parser α} {hk : kind.isConstruct} {s : State Forest}
    {post : α → State Forest → Prop} (h : (Grammar.node kind body hk).meets d s post) :
    (Grammar.node kind body hk).meets d s fun a t => post a t ∧ ∃ cs,
      t.built = .node kind cs :: s.built ∧ sightOf cs t.ahead.sight = s.ahead.sight := by
  have hbody : body.meets d s.enter.2 fun a t => s.Around t →
      (∀ k ∈ some (⟨kind, hk⟩ : Construct), d.node k.1 t.built.reverse t.ahead.sight) ∧
        post a (t.leave s.enter.1 (some kind)) := h
  refine meets_node (meets_mono hbody fun a t ht haround => ?_)
  obtain ⟨hnode, hpost⟩ := ht haround
  exact ⟨hnode _ rfl, hpost, _, rfl, haround.sight⟩

/-- A token of a kind is taken, or it is missing. -/
theorem meets_require {k : Kind} {hk : k.isSolid} {s : State Forest}
    {post : Unit → State Forest → Prop}
    (h : ∀ l ts, l.kind = k → sightOf [.leaf l] (Ahead.sight ts) = s.ahead.sight →
      (l.isPresent = false → ts = s.ahead ∧ s.ahead.isAt k = false) →
      post () ⟨ts, .leaf l :: s.built⟩) : (Grammar.require k hk).meets d s post := by
  have heat : (Grammar.eat k).meets d s fun found t =>
      if found then post () t
      else post () ⟨t.ahead, .missing k (k.fixedText.getD "").toList :: t.built⟩ :=
    meets_eat (Kind.ne_endOfFile_of_isSolid hk)
      (fun x ts hahead hx => h (.present x.token.outline) ts hx (by rw [hahead]; rfl) nofun)
      fun hat => h (.missing k _) s.ahead rfl rfl fun _ => ⟨rfl, hat⟩
  have hexpect : (Grammar.expect k hk).meets d s fun _ => post () := by
    unfold Grammar.expect
    rw [meets_bind]
    refine meets_mono heat ?_
    rintro (_ | _) t ht
    · exact ht
    · exact ht
  exact hexpect

/-- A node whose kind the rule for its parts chooses has to stand as demanded where it closes. -/
theorem meets_nodeBy {body : Parser (Construct × α)} {s : State Forest}
    {post : α → State Forest → Prop}
    (h : body.meets d s.enter.2 fun a t => s.Around t →
      d.node a.1.1 t.built.reverse t.ahead.sight ∧
        post a.2 ⟨t.ahead, .node a.1.1 t.built.reverse :: s.built⟩) :
    (Grammar.nodeBy body).meets d s post := by
  have hbody := meets_mono h fun a t ht (haround : s.Around t) =>
    (⟨fun k hk => Option.some.inj hk ▸ (ht haround).1, (ht haround).2⟩ :
      (∀ k ∈ some a.1, d.node k.1 t.built.reverse t.ahead.sight) ∧ _)
  exact hbody

/-- A node that may be given up has to stand as demanded only where it is kept. Where it is given
up, its parts are added to the trees around it. -/
theorem meets_nodeIf {kind : Kind} {body : Parser Bool} {hk : kind.isConstruct} {s : State Forest}
    {post : Bool → State Forest → Prop}
    (h : body.meets d s.enter.2 fun found t => s.Around t →
      (found = true → d.node kind t.built.reverse t.ahead.sight) ∧ ∀ built,
        post found ⟨t.ahead, built⟩) :
    (Grammar.nodeIf kind body hk).meets d s post := by
  have hkind (found : Bool) (t : State Forest)
      (hnode : found = true → d.node kind t.built.reverse t.ahead.sight) :
      ∀ k ∈ (if found then some ⟨kind, hk⟩ else none : Option Construct),
        d.node k.1 t.built.reverse t.ahead.sight := by
    intro k hk
    cases found with
    | true => exact Option.some.inj hk ▸ hnode rfl
    | false => cases hk
  have hbody := meets_mono h fun found t ht (haround : s.Around t) =>
    And.intro (hkind found t (ht haround).1) ((ht haround).2 (t.leave s.enter.1
      ((if found then some ⟨kind, hk⟩ else none : Option Construct).map Subtype.val)).built)
  exact hbody

/-- A node that opens around the newest tree, which is one. -/
theorem meets_enclose {kind k : Kind} {body : Parser α} {hk : kind.isConstruct} {ts : Ahead}
    {cs : List Green} {built : Forest} {post : α → State Forest → Prop}
    (h : body.meets d ⟨ts, []⟩ fun a t => State.Around ⟨ts, .node k cs :: built⟩ t →
      d.node kind (.node k cs :: t.built.reverse) t.ahead.sight ∧
        post a ⟨t.ahead, .node kind (.node k cs :: t.built.reverse) :: built⟩) :
    (Grammar.enclose kind body hk).meets d ⟨ts, .node k cs :: built⟩ post := h

/-- A loop takes an invariant: it holds where the loop starts, every round keeps it, and the last
round gives what is asked for. -/
theorem meets_repeatWhile {body : Parser Bool} {s : State Forest}
    {post : Unit → State Forest → Prop}
    (invariant : State Forest → Prop) (hs : invariant s)
    (h : ∀ t, invariant t → body.meets d t fun again u => if again then invariant u
      else post () u) :
    (Grammar.repeatWhile body).meets d s post := by
  refine ⟨invariant, hs, fun t ht => ?_⟩
  rw [meets_bind]
  refine meets_mono (h t ht) ?_
  rintro (_ | _) u hu
  · exact hu
  · exact hu

end Parser

/-! ## What the condition promises -/

/-- What was seen before a state, and what is seen behind the tokens that were added since. -/
theorem State.Carries.sightOf_eq {s t : State Forest} (h : s.Carries t) {gs : List Green}
    (hbuilt : Green.tokensOf t.built.reverse
      = Green.tokensOf s.built.reverse ++ Green.tokensOf gs) :
    sightOf gs t.ahead.sight = s.ahead.sight := by
  obtain ⟨taken, htokens, hpieces⟩ := h
  have hgs : Green.tokensOf gs = taken.map Token.outline :=
    List.append_cancel_left (hbuilt.symm.trans htokens)
  have hsight := (hpieces _ [] (.refl _)).sight_eq none
  rw [List.nil_append, List.nil_append, List.map_append, Token.sightOf_append, ← Ahead.sight_eq,
    ← Ahead.sight_eq, ← hgs] at hsight
  exact hsight

/-- Unexpected text is a node of its tokens. -/
theorem State.unexpected_eq (more : Nat) (x : Lexeme) (ts : Ahead) (built : Forest) :
    State.unexpected more ⟨x :: ts, built⟩ = (⟨ts.drop more,
      .node .unexpected ((x :: ts.take more).map fun x => .token x.token) :: built⟩ :
        State Forest) := by
  rw [State.unexpected_cons]
  show (⟨_, Green.node .unexpected ([] ++ (addAll _ ([] : Forest)).reverse) :: built⟩ :
    State Forest) = _
  rw [Forest.addAll_eq, List.append_nil, List.reverse_reverse, List.nil_append]

/-- Whether the nodes so far stand as demanded. The text has started if something was read, perhaps
before the node that is open. -/
structure State.Stands (d : Demand) (started : Prop) (s : State Forest) : Prop where
  nodes : StandAll d.node s.ahead.sight s.built.reverse
  lined : s.ahead.Lined (started ∨ Green.hasPresentOf s.built)

/-- A token that was read is one in whatever order the trees are. -/
theorem Green.hasPresentOf_reverse (gs : List Green) :
    Green.hasPresentOf gs.reverse = Green.hasPresentOf gs := by
  induction gs with
  | nil => rfl
  | cons g gs ih =>
    rw [List.reverse_cons, Green.hasPresentOf_append, ih, Green.hasPresentOf, Green.hasPresentOf,
      Green.hasPresentOf, Bool.or_false, Bool.or_comm]

namespace State.Stands

variable {d : Demand} {started : Prop} {s t : State Forest}

/-- Inside a node that opens, nothing is there yet. -/
theorem enter (h : s.Stands d started) :
    s.enter.2.Stands d (started ∨ Green.hasPresentOf s.built) :=
  ⟨trivial, h.lined.mono fun hs => hs.elim id fun hs => absurd hs Bool.false_ne_true⟩

/-- What was read since a node opened is what was seen when it opened. -/
theorem around (h : t.Stands d started) (hcarries : State.Carries s.enter.2 t) : s.Around t :=
  ⟨hcarries.sightOf_eq rfl, fun hpresent => h.lined.head (.inr hpresent)⟩

/-- A node that closes around the newest trees and what was added since. -/
theorem close {wrapped before : Forest} {kind : Kind} (h : s.Stands d started)
    (hbuilt : s.built = wrapped.reverse ++ before)
    (ht : t.Stands d (started ∨ Green.hasPresentOf s.built)) (haround : s.Around t)
    (hnode : d.node kind (wrapped ++ t.built.reverse) t.ahead.sight) :
    (⟨t.ahead, .node kind (wrapped ++ t.built.reverse) :: before⟩ : State Forest).Stands d
      started := by
  have hsplit : s.built.reverse = before.reverse ++ wrapped := by
    rw [hbuilt, List.reverse_append, List.reverse_reverse]
  have hnodes := h.nodes
  rw [hsplit, Green.standAll_append, ← haround.sight] at hnodes
  refine ⟨?_, ht.lined.mono ?_⟩
  · rw [List.reverse_cons, Green.standAll_append, Green.standAll_singleton, Green.sightOf_node,
      Green.sightOf_append]
    exact ⟨hnodes.1, hnode, Green.standAll_append.mpr ⟨hnodes.2, ht.nodes⟩⟩
  · rintro (hstarted | hpresent)
    · exact .inl (.inl hstarted)
    · simp only [Green.hasPresentOf, Green.hasPresent, Green.hasPresentOf_append,
        Green.hasPresentOf_reverse, Bool.or_eq_true] at hpresent
      rw [hbuilt, Green.hasPresentOf_append, Green.hasPresentOf_reverse, Bool.or_eq_true]
      rcases hpresent with (hw | ht) | hb
      · exact .inl (.inr (.inl hw))
      · exact .inr ht
      · exact .inl (.inr (.inr hb))

/-- A node that closes around what was added since it opened. -/
theorem closeNew (kind : Kind) (h : s.Stands d started)
    (ht : t.Stands d (started ∨ Green.hasPresentOf s.built)) (haround : s.Around t)
    (hnode : d.node kind t.built.reverse t.ahead.sight) :
    (⟨t.ahead, .node kind t.built.reverse :: s.built⟩ : State Forest).Stands d started := by
  have hbuilt : s.built = List.reverse [] ++ s.built := rfl
  exact h.close hbuilt ht haround hnode

/-- What was added since a node opened stays where it is. -/
theorem release (h : s.Stands d started) (ht : t.Stands d (started ∨ Green.hasPresentOf s.built))
    (haround : s.Around t) : (⟨t.ahead, t.built ++ s.built⟩ : State Forest).Stands d started := by
  refine ⟨?_, ht.lined.mono ?_⟩
  · rw [List.reverse_append, Green.standAll_append, haround.sight]
    exact ⟨h.nodes, ht.nodes⟩
  · rintro (hstarted | hpresent)
    · exact .inl (.inl hstarted)
    · rw [Green.hasPresentOf_append, Bool.or_eq_true] at hpresent
      exact hpresent.elim .inr fun hs => .inl (.inr hs)

/-- Taking a token keeps this: the nodes before see the token that was taken, as before. -/
theorem take {kind : Option SolidKind} (h : s.Stands d started) (hmay : s.ahead.MayTake kind) :
    (s.take kind).Stands d started := by
  have hcarries := State.Carries.take hmay
  obtain ⟨_ | ⟨x, ts⟩, built⟩ := s
  · exact h
  · obtain ⟨token, htake⟩ : ∃ token, State.take kind ⟨x :: ts, built⟩
        = (⟨ts, .token token :: built⟩ : State Forest) := ⟨_, rfl⟩
    rw [htake] at hcarries ⊢
    have hsight : sightOf [.token token] (Ahead.sight ts) = Ahead.sight (x :: ts) := by
      refine hcarries.sightOf_eq ?_
      rw [List.reverse_cons, Green.tokensOf_append]
    refine ⟨?_, h.lined.of_tail⟩
    rw [List.reverse_cons, Green.standAll_append, hsight]
    exact ⟨h.nodes, trivial, trivial⟩

/-- Cutting a token keeps this, since rules see nothing of the kind of a token that may be cut. -/
theorem splitHead {head : SolidKind} {rest : Option SolidKind} (h : s.Stands d started)
    (hmay : s.ahead.MayCut head rest) :
    ({ s with ahead := s.ahead.splitHead head rest } : State Forest).Stands d started := by
  have hsight : sightOf [] (Ahead.sight (s.ahead.splitHead head rest)) = s.ahead.sight :=
    (State.Carries.splitHead hmay).sightOf_eq (List.append_nil _).symm
  rw [Green.sightOf_nil] at hsight
  refine ⟨?_, h.lined.splitHead⟩
  show StandAll d.node (Ahead.sight (s.ahead.splitHead head rest)) _
  rw [hsight]
  exact h.nodes

/-- A missing token has no text, and is not seen by the nodes before it. -/
theorem missing {kind : Kind} {spelling : Text} (h : s.Stands d started) :
    ({ s with built := Assembly.missing kind spelling s.built } : State Forest).Stands d
      started := by
  refine ⟨?_, h.lined.mono fun hs => hs.imp id fun hs => hs⟩
  show StandAll d.node s.ahead.sight (Green.missing kind spelling :: s.built).reverse
  rw [List.reverse_cons, Green.standAll_append]
  exact ⟨h.nodes, trivial, trivial⟩

/-- Tokens that are kept as unexpected text, and what is seen behind them. -/
theorem unexpected {x : Lexeme} {ts : Ahead} {built : Forest} {more : Nat}
    (h : State.Stands d started ⟨x :: ts, built⟩)
    (hnode : Ahead.Tells (ts.drop more) → d.node .unexpected
      ((x :: ts.take more).map fun x => .token x.token) (Ahead.sight (ts.drop more))) :
    (State.unexpected more ⟨x :: ts, built⟩ : State Forest).Stands d started := by
  have hbehind {p : Prop} : Ahead.Lined p (List.drop more ts) := h.lined.drop (Nat.succ_pos more)
  have htells : Ahead.Tells (ts.drop more) := (hbehind (p := True)).head trivial
  rw [State.unexpected_eq]
  have hclose := h.closeNew .unexpected (t := ⟨ts.drop more, ((x :: ts.take more).map fun x =>
    Green.token x.token).reverse⟩)
  rw [List.reverse_reverse] at hclose
  refine hclose ⟨?_, hbehind⟩ ⟨?_, fun _ => htells⟩ (hnode htells)
  · rw [List.reverse_reverse, ← Function.comp_def, ← List.map_map]
    exact Green.standAll_tokens _
  · rw [List.reverse_reverse]
    rfl

end State.Stands

/-- Whether the nodes of what an environment reaches stand as demanded, and goals keep what they
promise. -/
def Env.Keeps (d : Demand) (env : Env Forest) : Prop :=
  ∀ (goal : Goal) (s : State Forest) (a : Bool) (t : State Forest) (started : Prop),
    env.call goal s = some (a, t) → s.Stands d started →
      t.Stands d started ∧ ∀ g, t.built = g :: s.built → d.goal goal g

/-- Whether a rule, under its condition, ends as the condition says and makes nodes that stand as
demanded. What it puts together has to be as wanted, since what is seen of a token depends on how
tokens may be taken. -/
def Parser.SoundFor (d : Demand) (env : Env Forest) {α : Type} (p : Parser α) : Prop :=
  ∀ ⦃s : State Forest⦄ ⦃a : α⦄ ⦃t : State Forest⦄ ⦃started : Prop⦄
    ⦃post wanted : α → State Forest → Prop⦄,
    p.run env s = some (a, t) → p.yields s wanted → p.meets d s post → s.Stands d started →
      post a t ∧ t.Stands d started

namespace Parser.SoundFor

variable {d : Demand} {α β : Type} {env : Env Forest}

/-- Behind a sound rule the next one starts with nodes that stand as demanded, and with what was put
together as wanted. -/
theorem bind (henv : env.Honest) {first : Parser α} {next : α → Parser β}
    (hfirst : first.SoundFor d env) (hnext : ∀ a, (next a).SoundFor d env) :
    (Parser.bind first next).SoundFor d env := by
  intro s b t started post wanted hr hy h hs
  rw [run] at hr
  split at hr
  · cases hr
  · rename_i a u hu
    obtain ⟨hmeets, hu'⟩ := hfirst hu hy h hs
    exact hnext a hr (sound_of_yields henv hu hy).1 hmeets hu'

/-- Skipped text makes a node with the tokens that were ahead, which has to stand as demanded unless
nothing is left to skip. -/
theorem unexpected (more : Nat) : (Parser.unexpected more).SoundFor d env := by
  intro s b t started post wanted hr _ h hs
  cases hr
  refine ⟨h.2, ?_⟩
  obtain ⟨_ | ⟨x, ts⟩, built⟩ := s
  · exact hs
  · exact hs.unexpected (h.1 (List.cons_ne_nil _ _))

/-- A node that closes stands as its condition says, given what is known around it. A mark that is
given up leaves its parts to the node around it. -/
theorem mark (henv : env.Honest) {body : Parser (Option Construct × α)}
    (hbody : body.SoundFor d env) : (Parser.mark body).SoundFor d env := by
  intro s b t started post wanted hr hy h hs
  rw [run_mark] at hr
  split at hr
  · cases hr
  · rename_i kind a u hu
    cases hr
    obtain ⟨hpost, hu'⟩ := hbody hu hy h hs.enter
    have haround : s.Around u := hu'.around (sound_of_yields henv hu hy).2
    obtain ⟨hnode, hpost⟩ := hpost haround
    refine ⟨hpost, ?_⟩
    cases kind with
    | some kind => exact hs.closeNew _ hu' haround (hnode kind rfl)
    | none =>
      have hrelease := hs.release hu' haround
      rwa [← List.append_nil u.built] at hrelease

/-- A node around the newest tree is sound if its parts are: the newest tree stood as demanded
before, and sees the same behind it. -/
theorem enclose (henv : env.Honest) {kind : Construct} {body : Parser α}
    (hbody : body.SoundFor d env) : (Parser.enclose kind body).SoundFor d env := by
  intro s b t started post wanted hr hy h hs
  rw [run_enclose] at hr
  split at hr
  · cases hr
  · rename_i a u hu
    cases hr
    obtain ⟨wrapped, before, hbuilt, hprecede⟩ := s.precede_eq
    rw [yields, hprecede] at hy
    rw [meets, hprecede] at h
    rw [hprecede] at hu ⊢
    obtain ⟨hpost, hu'⟩ := hbody hu hy h hs.enter
    have haround : s.Around u := hu'.around (sound_of_yields henv hu hy).2
    obtain ⟨hnode, hpost⟩ := hpost haround
    exact ⟨hpost, hs.close hbuilt hu' haround hnode⟩

/-- A goal adds one tree, of which is known what the goal gives and promises, and what was seen
where it starts. -/
theorem call (henv : env.Honest) (hkeeps : env.Keeps d) (goal : Goal) :
    (Parser.call goal).SoundFor d env := by
  intro s b t started post wanted hr _ h hs
  obtain ⟨⟨g, hbuilt, hgives⟩, hcarries⟩ := henv goal s b t hr
  obtain ⟨ht, hgoal⟩ := hkeeps goal s b t started hr hs
  have hsight : sightOf [g] t.ahead.sight = s.ahead.sight := by
    refine hcarries.sightOf_eq ?_
    rw [hbuilt, List.reverse_cons, Green.tokensOf_append]
  have hpost := h b t.ahead g hgives (hgoal g hbuilt) hsight
  rw [← hbuilt] at hpost
  exact ⟨hpost, ht⟩

/-- Both conditions of a loop have an invariant of their own, and each round keeps both. -/
theorem repeatUntil (henv : env.Honest) {body : Parser (Option α)} (hbody : body.SoundFor d env) :
    (Parser.repeatUntil body).SoundFor d env := by
  intro s b t started post wanted hr hy h hs
  obtain ⟨invariant, hinvariant, hround⟩ := h
  obtain ⟨invariant', hinvariant', hround'⟩ := hy
  refine (@iterate_of_yields _ _ (fun u => invariant u ∧ invariant' u ∧ u.Stands d started)
    (fun a u => post a u ∧ u.Stands d started) ?_ env.rounds _ _ _
    ⟨hinvariant, hinvariant', hs⟩ hr).1
  rintro u a v ⟨hu, hu', hstands⟩ hv
  obtain ⟨hyields, hcarries⟩ := sound_of_yields henv hv (hround' u hu')
  obtain ⟨hmeets, hstands'⟩ := hbody hv (hround' u hu') (hround u hu) hstands
  refine ⟨?_, hcarries⟩
  cases a with
  | some a => exact ⟨hmeets, hstands'⟩
  | none => exact ⟨hmeets, hyields, hstands'⟩

end Parser.SoundFor

/-- **Every rule is sound**, by induction on how it is put together. What is put together is told by
`Parser.sound_of_yields` at every step, since what is seen of a token depends on how tokens may be
taken. -/
theorem Parser.sound_of_meets {d : Demand} {α : Type} {env : Env Forest} (henv : env.Honest)
    (hkeeps : env.Keeps d) (p : Parser α) : p.SoundFor d env := by
  induction p with
  | bind first next ih_first ih_next => exact .bind henv ih_first ih_next
  | unexpected more => exact .unexpected more
  | mark body ih => exact .mark henv ih
  | enclose kind body ih => exact .enclose henv ih
  | call goal => exact .call henv hkeeps goal
  | repeatUntil body ih => exact .repeatUntil henv ih
  | pure a =>
    intro s b t started post wanted hr _ h hs
    cases hr
    exact ⟨h, hs⟩
  | look f =>
    intro s b t started post wanted hr _ h hs
    cases hr
    exact ⟨h hs.lined.led, hs⟩
  | take kind =>
    intro s b t started post wanted hr hy h hs
    cases hr
    exact ⟨h, hs.take hy.1⟩
  | splitHead head rest =>
    intro s b t started post wanted hr hy h hs
    cases hr
    exact ⟨h, hs.splitHead hy.1⟩
  | missing kind spelling =>
    intro s b t started post wanted hr _ h hs
    cases hr
    exact ⟨h, hs.missing⟩
  | placeholder kind =>
    intro s b t started post wanted hr _ h hs
    cases hr
    exact ⟨h.2, hs.closeNew _ hs.enter ⟨rfl, fun h => absurd h Bool.false_ne_true⟩ h.1⟩
  | override start diagnostic =>
    intro s b t started post wanted hr _ h hs
    cases hr
    exact ⟨h, hs⟩

/-! ## Goals and entries -/

/-- Whether all rules meet a demand. -/
structure Demand.Met (d : Demand) : Prop where
  /-- the nodes of every goal stand as demanded, and the goal keeps what it promises -/
  goal (goal : Goal) (ts : Ahead) (built : Forest) : goal.rule.meets d ⟨ts, built⟩
    fun _ t => ∀ g, t.built = g :: built → d.goal goal g
  /-- the nodes of every entry stand as demanded -/
  entry (e : Entry) (ts : Ahead) : e.rule.meets d ⟨ts, []⟩ fun _ _ => True
  /-- so does every root -/
  root (e : Entry) (cs : List Green) : d.node e.root cs none

/-- Rules can rely on what goals promise. -/
theorem Env.keeps_ofLimit {d : Demand} (hd : d.Met) (n : Nat) :
    (Env.ofLimit n : Env Forest).Keeps d := by
  induction n with
  | zero =>
    intro goal s a t started h
    cases h
  | succ n ih =>
    intro goal s a t started h hs
    obtain ⟨hgoal, ht⟩ := Parser.sound_of_meets (Env.honest_ofLimit n) ih goal.rule h
      (goal.rule_adds s.ahead s.built trivial) (hd.goal goal s.ahead s.built) hs
    exact ⟨ht, hgoal⟩

end Grammar

namespace Entry

open Grammar

variable {d : Demand}

/-- What an entry meets, holds of its parts. -/
theorem exists_of_meets (hd : d.Met) (e : Entry) (text : Text)
    {post : Unit → State Forest → Prop} (h : e.rule.meets d ⟨.ofText text, []⟩ post) :
    ∃ t : State Forest, post () t ∧ e.parts text = t.built.reverse ∧
      Green.StandAll d.node none (e.parts text) := by
  have hfirst : State.Stands d False ⟨.ofText text, []⟩ := by
    refine ⟨trivial, (Ahead.Lined.ofTokens _ 0 _ _).mono ?_⟩
    rintro (hfalse | hpresent)
    · exact hfalse
    · exact absurd hpresent Bool.false_ne_true
  obtain ⟨hpost, hstands⟩ := Parser.sound_of_meets (Env.honest_ofLimit _) (Env.keeps_ofLimit hd _)
    e.rule (e.run_rule text) (e.rule_makes (.ofText text) [] trivial) h hfirst
  have hparts := (List.reverse_reverse (e.parts text)).symm
  exact ⟨_, hpost, hparts, hparts ▸ hstands.nodes⟩

/-- Every node of the tree of a text stands as demanded. -/
theorem stands_tree (hd : d.Met) (e : Entry) (text : Text) : (e.tree text).Stands d.node none := by
  obtain ⟨-, -, -, hstands⟩ := exists_of_meets hd e text (hd.entry e (.ofText text))
  have hend : Green.sightOf [.token (endOfFile text)] none = none := if_pos (kind_endOfFile text)
  rw [e.tree_eq]
  refine ⟨hd.root e _, Green.standAll_append.mpr ⟨?_, trivial, trivial⟩⟩
  rwa [hend]

/-- Every node below one of its places stands as demanded as well, in front of what is behind it in
the text. -/
theorem stands_of_mem_descendants (hd : d.Met) {e : Entry} {text : Text} {n : Node}
    (hn : n ∈ (Node.ofGreen (e.tree text)).descendants) :
    n.green.Stands d.node (Green.sightOf n.behind none) := by
  have htree := e.stands_tree hd text
  rw [e.tree_eq] at hn htree
  exact Node.stands_of_mem_descendants (n := .ofGreen (.node e.root _)) rfl htree hn

end Entry

end SwiftTree
