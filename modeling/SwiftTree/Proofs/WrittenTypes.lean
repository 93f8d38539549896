import SwiftTree.Proofs.Clean
import SwiftTree.Proofs.Signs

/-!
# Types as they are written

A `WrittenType` is a type built from names, generic applications, optionals, arrays, dictionaries,
tuples and functions. It is written with blanks behind `,` and `:` and around `->` alone
(`WrittenType.print`), and read from a tree by the kinds of its nodes (`WrittenType.read?`).

The parentheses around an optional function are those of a tuple, so the types `((A) -> B)?` of an
optional function and of an optional tuple of one function are written alike. In a tree they are the
latter, which `WrittenType.explicit` makes of the former.

Types are written with signs that fit, as long as generic arguments do not end in a question mark
(`WrittenType.fits_of_isClosed`).
-/

namespace SwiftTree

/-- A type that can be written. -/
inductive WrittenType where
  | name (n : Name)
  /-- a name with generic arguments, of which there is at least one -/
  | generic (n : Name) (first : WrittenType) (others : List WrittenType)
  | optional (t : WrittenType)
  | array (t : WrittenType)
  | dictionary (key value : WrittenType)
  | tuple (ts : List WrittenType)
  | function (parameters : List WrittenType) (result : WrittenType)

namespace WrittenType

/-- What holds of a type holds of all, if it does for the same reason that it holds of its parts. -/
theorem induct {p : WrittenType → Prop} (name : ∀ n, p (name n))
    (generic : ∀ n t ts, p t → (∀ u ∈ ts, p u) → p (generic n t ts))
    (optional : ∀ t, p t → p (optional t)) (array : ∀ t, p t → p (array t))
    (dictionary : ∀ k v, p k → p v → p (dictionary k v))
    (tuple : ∀ ts, (∀ t ∈ ts, p t) → p (tuple ts))
    (function : ∀ ts r, (∀ t ∈ ts, p t) → p r → p (function ts r)) (t : WrittenType) : p t := by
  refine WrittenType.rec (motive_2 := fun ts => ∀ t ∈ ts,
    p t) name generic optional array dictionary
    tuple function nofun ?_ t
  exact fun t ts ht hts => List.forall_mem_cons.mpr ⟨ht, hts⟩

/-- Whether the type is one of a function. -/
def isFunction : WrittenType → Bool
  | function _ _ => true
  | _ => false

/-! ### Writing -/

mutual

/-- How a type is written. -/
def print : WrittenType → Text
  | name n => n.text
  | generic n t ts => n.text ++ ['<'] ++ [',', ' '].intercalate (t.print :: printAll ts) ++ ['>']
  | optional t => (if t.isFunction then ['('] ++ t.print ++ [')'] else t.print) ++ ['?']
  | array t => ['['] ++ t.print ++ [']']
  | dictionary k v => ['['] ++ k.print ++ [':', ' '] ++ v.print ++ [']']
  | tuple ts => ['('] ++ [',', ' '].intercalate (printAll ts) ++ [')']
  | function ts r =>
    ['('] ++ [',', ' '].intercalate (printAll ts) ++ [')', ' ', '-', '>', ' '] ++ r.print

/-- How several types are written. -/
def printAll : List WrittenType → List Text
  | [] => []
  | t :: ts => t.print :: printAll ts

end

mutual

/-- The signs that a type is written with. -/
def signs : WrittenType → List Sign
  | name n => [.word n]
  | generic n t ts =>
    .word n :: .leftAngle :: ([.comma].intercalate (t.signs :: signsAll ts) ++ [.rightAngle])
  | optional t =>
    (if t.isFunction then .leftParen :: (t.signs ++ [.rightParen false]) else t.signs) ++ [.mark]
  | array t => .leftBracket :: (t.signs ++ [.rightBracket])
  | dictionary k v => .leftBracket :: (k.signs ++ .colon :: (v.signs ++ [.rightBracket]))
  | tuple ts => .leftParen :: ([.comma].intercalate (signsAll ts) ++ [.rightParen false])
  | function ts r =>
    .leftParen :: ([.comma].intercalate (signsAll ts) ++ .rightParen true :: .arrow :: r.signs)

/-- The signs that several types are written with. -/
def signsAll : List WrittenType → List (List Sign)
  | [] => []
  | t :: ts => t.signs :: signsAll ts

end

/-- Whether the last character of a type is a question mark. -/
def endsInMark : WrittenType → Bool
  | optional _ => true
  | function _ r => r.endsInMark
  | _ => false

mutual

/-- Whether no generic arguments of a type end in a question mark. -/
def isClosed : WrittenType → Bool
  | name _ => true
  | generic _ t ts => !(ts.getLastD t).endsInMark && t.isClosed && allClosed ts
  | optional t | array t => t.isClosed
  | dictionary k v => k.isClosed && v.isClosed
  | tuple ts => allClosed ts
  | function ts r => allClosed ts && r.isClosed

/-- Whether no generic arguments of several types end in a question mark. -/
def allClosed : List WrittenType → Bool
  | [] => true
  | t :: ts => t.isClosed && allClosed ts

end

/-! ### Reading -/

mutual

/-- The type with the parentheses of optional functions as tuples of one type. -/
def explicit : WrittenType → WrittenType
  | name n => name n
  | generic n t ts => generic n t.explicit (explicitAll ts)
  | optional t => optional (if t.isFunction then tuple [t.explicit] else t.explicit)
  | array t => array t.explicit
  | dictionary k v => dictionary k.explicit v.explicit
  | tuple ts => tuple (explicitAll ts)
  | function ts r => function (explicitAll ts) r.explicit

/-- The same for several types. -/
def explicitAll : List WrittenType → List WrittenType
  | [] => []
  | t :: ts => t.explicit :: explicitAll ts

end

/-- The name that a token is. -/
def name? (l : Green.Leaf) : Option Name :=
  if h : l.kind = .identifier ∧ Token.isIdentifier l.textTrimmed then some ⟨l.textTrimmed, h.2⟩
  else none

mutual

/-- The type that a tree is. -/
def read? : Green → Option WrittenType
  | .node .simpleType [.leaf l] => (name? l).map name
  | .node .simpleType [.leaf l, .node .genericArgumentClause gs] => do
    let n ← name? l
    match ← readElements? .genericArgument gs with
    | [] => none
    | t :: ts => some (generic n t ts)
  | .node .optionalType [g, .leaf _] => (read? g).map optional
  | .node .arrayType [.leaf _, g, .leaf _] => (read? g).map array
  | .node .dictionaryType [.leaf _, g, .leaf _, h, .leaf _] => do
    let k ← read? g
    let v ← read? h
    some (dictionary k v)
  | .node .tupleType gs => (readElements? .tupleTypeElement gs).map tuple
  | .node .functionType gs => do
    let ts ← readElements? .tupleTypeElement gs
    let r ← readResult? gs
    some (function ts r)
  | _ => none

/-- The types that the elements of a kind start with. -/
def readElements? (kind : Kind) : List Green → Option (List WrittenType)
  | [] => some []
  | .node k (g :: _) :: gs =>
    if k = kind then do
      let t ← read? g
      let ts ← readElements? kind gs
      some (t :: ts)
    else readElements? kind gs
  | _ :: gs => readElements? kind gs

/-- The type behind the last token. -/
def readResult? : List Green → Option WrittenType
  | [] => none
  | [.leaf _, g] => read? g
  | _ :: gs => readResult? gs

end

/-! ### Trees -/

/-- Nodes of a kind around trees, with the commas between them. -/
def elements (kind : Kind) : List Green → List Green
  | [] => []
  | [g] => [.node kind [g]]
  | g :: h :: gs => .node kind [g, .token Sign.comma.token] :: elements kind (h :: gs)

theorem reverse_elements_cons (kind : Kind) (g h : Green) (gs built : List Green) :
    (elements kind (g :: h :: gs)).reverse ++ built
      = (elements kind (h :: gs)).reverse ++
      (.node kind [g, .token Sign.comma.token] :: built) := by
  rw [elements, List.reverse_cons, List.append_assoc, List.singleton_append]

/-- A tuple type. -/
def tupleTree (gs : List Green) : Green :=
  .node .tupleType (.token Sign.leftParen.token ::
    (elements .tupleTypeElement gs ++ [.token (Sign.rightParen false).token]))

/-- An angle bracket, as the rules take it. -/
def angle (kind : Kind) (c : Char) : Green := .token ⟨[], kind, [c], []⟩

mutual

/-- The tree of a type. -/
def tree : WrittenType → Green
  | name n => .node .simpleType [.token (Sign.word n).token]
  | generic n t ts =>
    .node .simpleType [.token (Sign.word n).token,
      .node .genericArgumentClause (angle .leftAngle '<' ::
        (elements .genericArgument (t.tree :: treeAll ts) ++ [angle .rightAngle '>']))]
  | optional t =>
    .node .optionalType [if t.isFunction then tupleTree [t.tree] else t.tree,
      .token Sign.mark.token]
  | array t =>
    .node .arrayType [.token Sign.leftBracket.token, t.tree, .token Sign.rightBracket.token]
  | dictionary k v =>
    .node .dictionaryType [.token Sign.leftBracket.token, k.tree, .token Sign.colon.token, v.tree,
      .token Sign.rightBracket.token]
  | tuple ts => tupleTree (treeAll ts)
  | function ts r =>
    .node .functionType (.token Sign.leftParen.token ::
      (elements .tupleTypeElement (treeAll ts) ++ [.token (Sign.rightParen true).token,
        .token Sign.arrow.token, r.tree]))

/-- The trees of several types. -/
def treeAll : List WrittenType → List Green
  | [] => []
  | t :: ts => t.tree :: treeAll ts

end

/-- The trees of several types are those of each. -/
theorem treeAll_eq (ts : List WrittenType) : treeAll ts = ts.map tree := by
  induction ts with
  | nil => rfl
  | cons t ts ih => rw [treeAll, ih, List.map_cons]

/-- What is read of elements does not depend on the commas. -/
theorem readElements?_cons_leaf (kind : Kind) (l : Green.Leaf) (gs : List Green) :
    readElements? kind (.leaf l :: gs) = readElements? kind gs := by
  rw [readElements?]
  exact nofun

/-- An element of the kind is read as the type that it starts with. -/
theorem readElements?_cons_node {kind k : Kind} (g : Green) (hs gs : List Green) (hk : k = kind) :
    readElements? kind (.node k (g :: hs) :: gs)
      = (read? g).bind fun t => (readElements? kind gs).bind fun ts => some (t :: ts) := by
  rw [readElements?, if_pos hk]
  rfl

/-- Elements are read if what they hold is, and what stands behind them adds none. -/
theorem readElements?_elements {kind : Kind} {behind : List Green} {ts : List WrittenType}
    (hts : ∀ t ∈ ts, read? t.tree = some t.explicit)
    (hbehind : readElements? kind behind = some []) :
    readElements? kind (elements kind (treeAll ts) ++ behind) = some (explicitAll ts) := by
  induction ts with
  | nil => exact hbehind
  | cons t ts ih =>
    obtain ⟨ht, hts⟩ := List.forall_mem_cons.mp hts
    cases ts with
    | nil =>
      rw [treeAll, treeAll, elements, List.singleton_append, readElements?_cons_node _ _ _ rfl, ht,
        hbehind]
      rfl
    | cons u us =>
      rw [treeAll, treeAll, elements, List.cons_append, readElements?_cons_node _ _ _ rfl, ht]
      rw [treeAll] at ih
      rw [ih hts]
      rfl

/-- Behind the elements and two tokens stands the result. -/
theorem readResult?_append (gs : List Green) (l : Green.Leaf) (g : Green) :
    readResult? (gs ++ [.leaf l, g]) = read? g := by
  induction gs with
  | nil => rfl
  | cons g gs ih =>
    rw [List.cons_append, readResult?, ih]
    intro l' g' _ hgs
    cases gs with
    | nil => cases hgs
    | cons h gs =>
      have hlen := congrArg List.length hgs
      simp at hlen

/-- A token with the kind and the text of a name is this name. -/
theorem name?_eq {l : Green.Leaf} {n : Name} (hkind : l.kind = .identifier)
    (htext : l.textTrimmed = n.text) : name? l = some n := by
  obtain ⟨text, h⟩ := n
  obtain rfl : l.textTrimmed = text := htext
  rw [name?, dif_pos ⟨hkind, h⟩]

theorem name?_token (n : Name) : name? (.present (Sign.word n).token.outline) = some n :=
  name?_eq rfl (Token.text_outline _)

/-- A tuple type is read as the tuple of what its elements are read as. -/
theorem read?_tupleTree (ts : List WrittenType) (hts : ∀ t ∈ ts, read? t.tree = some t.explicit) :
    read? (tupleTree (treeAll ts)) = some (tuple (explicitAll ts)) := by
  show (readElements? .tupleTypeElement (.leaf _ :: _)).map tuple = _
  rw [readElements?_cons_leaf, readElements?_elements hts rfl]
  rfl

/-- **A type is read from its tree**, with the parentheses of optional functions as tuples. -/
theorem read?_tree (t : WrittenType) : read? t.tree = some t.explicit := by
  induction t using induct with
  | name n =>
    show (name? _).map name = _
    rw [name?_token]
    rfl
  | generic n t ts iht ihts =>
    have hargs : readElements? .genericArgument (angle .leftAngle '<' ::
        (elements .genericArgument (treeAll (t :: ts)) ++ [angle .rightAngle '>']))
        = some (explicitAll (t :: ts)) := by
      rw [angle, Green.token, readElements?_cons_leaf]
      exact readElements?_elements (List.forall_mem_cons.mpr ⟨iht, ihts⟩) rfl
    show (name? _).bind (fun n => (readElements? .genericArgument _).bind _) = _
    rw [treeAll] at hargs
    rw [name?_token, Option.bind_some, hargs]
    rfl
  | optional t ih =>
    have hinner : read? (if t.isFunction then tupleTree [t.tree] else t.tree)
        = some (if t.isFunction then tuple [t.explicit] else t.explicit) := by
      split
      · exact read?_tupleTree [t] (List.forall_mem_singleton.mpr ih)
      · exact ih
    show (read? _).map optional = _
    rw [hinner]
    rfl
  | array t ih =>
    show (read? t.tree).map array = _
    rw [ih]
    rfl
  | dictionary k v ihk ihv =>
    show (read? k.tree).bind (fun k => (read? v.tree).bind _) = _
    rw [ihk, ihv]
    rfl
  | tuple ts ih => exact read?_tupleTree ts ih
  | function ts r ihts ihr =>
    -- the reader of parameters passes over the arrow and what follows, for no element is there
    have hresult : readElements? .tupleTypeElement [.token (Sign.rightParen true).token,
        .token Sign.arrow.token, r.tree] = some [] := by
      obtain ⟨k, g, gs, hr, hk⟩ : ∃ k g gs, r.tree = .node k (g :: gs) ∧ k ≠ .tupleTypeElement := by
        cases r <;> exact ⟨_, _, _, rfl, by decide⟩
      rw [hr, Green.token, Green.token, readElements?_cons_leaf, readElements?_cons_leaf,
        readElements?, if_neg hk]
      rfl
    have hlast (gs : List Green) : readResult? (.token Sign.leftParen.token ::
        (gs ++ [.token (Sign.rightParen true).token, .token Sign.arrow.token, r.tree]))
        = some r.explicit := by
      have happend := readResult?_append (.token Sign.leftParen.token ::
        (gs ++ [.token (Sign.rightParen true).token])) (.present Sign.arrow.token.outline) r.tree
      rw [List.cons_append, List.append_assoc] at happend
      exact happend.trans ihr
    show (readElements? .tupleTypeElement (.leaf _ :: _)).bind
      (fun ts => (readResult? (.token _ :: _)).bind _) = _
    rw [readElements?_cons_leaf, readElements?_elements ihts hresult, Option.bind_some, hlast]
    rfl

/-! ### Trees of types are clean -/

/-- Elements are clean if the trees in them are; nothing else is in them but commas that were
read. -/
theorem allClean_elements (kind : Kind) {gs : List Green} (hkind : kind.isConstruct)
    (hgs : Green.allClean gs) : Green.allClean (elements kind gs) := by
  induction gs with
  | nil => rfl
  | cons g gs ih =>
    rw [Green.allClean_cons, Bool.and_eq_true] at hgs
    cases gs with
    | nil => simp [elements, Green.isClean_node hkind, hgs.1]
    | cons h gs => simp [elements, Green.isClean_node hkind, hgs.1, ih hgs.2]

/-- The trees of several types are clean if each of them is. -/
theorem allClean_treeAll {ts : List WrittenType} (h : ∀ t ∈ ts, t.tree.isClean) :
    Green.allClean (treeAll ts) := by
  rw [treeAll_eq, Green.allClean_iff]
  exact List.forall_mem_map.mpr h

/-- A tuple type is clean if its elements are. -/
theorem isClean_tupleTree {gs : List Green} (h : Green.allClean gs) : (tupleTree gs).isClean := by
  have helements := allClean_elements .tupleTypeElement rfl h
  rw [tupleTree, Green.isClean_node rfl]
  simp [helements]

/-- Nothing is missing in the tree of a type, and nothing is unexpected. -/
theorem isClean_tree (t : WrittenType) : t.tree.isClean := by
  induction t using induct with
  | name n => rfl
  | generic n t ts iht ihts =>
    have helements := allClean_elements .genericArgument rfl
      (allClean_treeAll (List.forall_mem_cons.mpr ⟨iht, ihts⟩))
    rw [treeAll] at helements
    rw [tree, Green.isClean_node rfl, Green.allClean_cons, Green.allClean_cons,
      Green.isClean_node rfl]
    simp [helements, angle]
  | optional t ih =>
    have hinner : (if t.isFunction then tupleTree [t.tree] else t.tree).isClean := by
      split
      · exact isClean_tupleTree (allClean_treeAll (List.forall_mem_singleton.mpr ih))
      · exact ih
    rw [tree, Green.isClean_node rfl]
    simp [hinner]
  | array t ih =>
    rw [tree, Green.isClean_node rfl]
    simp [ih]
  | dictionary k v ihk ihv =>
    rw [tree, Green.isClean_node rfl]
    simp [ihk, ihv]
  | tuple ts ih => exact isClean_tupleTree (allClean_treeAll ih)
  | function ts r ihts ihr =>
    have helements := allClean_elements .tupleTypeElement rfl (allClean_treeAll ihts)
    rw [tree, Green.isClean_node rfl]
    simp [helements, ihr]

/-! ### The text of types -/

/-- Signs between commas are written as the types between commas are. -/
theorem text_intercalate {ts : List WrittenType} (h : ∀ t ∈ ts, Sign.text t.signs = t.print) :
    Sign.text ([.comma].intercalate (signsAll ts)) = [',', ' '].intercalate (printAll ts) := by
  induction ts with
  | nil => rfl
  | cons t ts ih =>
    obtain ⟨ht, hts⟩ := List.forall_mem_cons.mp h
    cases ts with
    | nil =>
      rw [signsAll, signsAll, printAll, printAll, List.intercalate_singleton,
        List.intercalate_singleton, ht]
    | cons u us =>
      rw [signsAll, signsAll, printAll, printAll, List.intercalate_cons_cons,
        List.intercalate_cons_cons, Sign.text_append, Sign.text_append, ht]
      exact congrArg _ (ih hts)

/-- A type is written with its signs. -/
theorem text_signs (t : WrittenType) : Sign.text t.signs = t.print := by
  have hnil : Sign.text [] = [] := rfl
  induction t using induct with
  | name n => simp [signs, print, Sign.text_cons, hnil, Sign.token]
  | generic n t ts iht ihts =>
    have hargs := text_intercalate (List.forall_mem_cons.mpr ⟨iht, ihts⟩)
    rw [signsAll, printAll] at hargs
    simp [signs, print, Sign.text_cons, Sign.text_append, hnil, Sign.token, hargs]
  | optional t ih =>
    rw [signs, print, Sign.text_append]
    split <;> simp [Sign.text_cons, Sign.text_append, hnil, Sign.token, ih]
  | array t ih => simp [signs, print, Sign.text_cons, Sign.text_append, hnil, Sign.token, ih]
  | dictionary k v ihk ihv =>
    simp [signs, print, Sign.text_cons, Sign.text_append, hnil, Sign.token, Token.blank, ihk, ihv]
  | tuple ts ih =>
    simp [signs, print, Sign.text_cons, Sign.text_append, hnil, Sign.token, text_intercalate ih]
  | function ts r ihts ihr =>
    simp [signs, print, Sign.text_cons, Sign.text_append, Sign.token, Token.blank,
      text_intercalate ihts, ihr]

/-! ### The signs of types fit -/

/-- A type starts with a sign that types start with. -/
theorem exists_signs_eq (t : WrittenType) : ∃ s ss, t.signs = s :: ss ∧ s.starts := by
  induction t using induct with
  | optional t ih =>
    obtain ⟨s, ss, ht, hs⟩ := ih
    rw [signs]
    split
    · exact ⟨_, _, rfl, rfl⟩
    · exact ⟨s, ss ++ [.mark], by rw [ht, List.cons_append], hs⟩
  | _ => exact ⟨_, _, rfl, rfl⟩

/-- What several types are written with starts with what the first one does. -/
theorem exists_intercalate_eq (t : WrittenType) (ts : List WrittenType) :
    ∃ s ss, [.comma].intercalate (signsAll (t :: ts)) = s :: ss ∧ s.starts := by
  obtain ⟨s, ss, ht, hs⟩ := t.exists_signs_eq
  rw [signsAll, ht]
  cases signsAll ts with
  | nil => exact ⟨s, ss, List.intercalate_singleton, hs⟩
  | cons us uss => exact ⟨s, _, by rw [List.intercalate_cons_cons]; rfl, hs⟩

/-- Whether a type fits before every sign that can follow it. -/
def Fits (t : WrittenType) : Prop :=
  ∀ next : Option Sign, next.all Sign.follows → (t.endsInMark → ∀ s ∈ next, s ≠ .rightAngle) →
    Sign.FitBefore next t.signs

/-- A type that fits before everything that can follow fits before a sign other than a closing angle
bracket. -/
theorem Fits.before {t : WrittenType} (h : t.Fits) {s : Sign} (hs : s.follows)
    (hmark : s ≠ .rightAngle) : Sign.FitBefore (some s) t.signs := by
  refine h (some s) hs fun _ u hu => ?_
  obtain rfl := Option.some.inj hu
  exact hmark

/-- Types between commas fit each other, and the last one fits before what follows. -/
theorem fitBefore_intercalate {ts : List WrittenType} {next : Sign} (h : ∀ t ∈ ts, t.Fits)
    (hnext : next.follows) (hlast : ∀ t ∈ ts.getLast?, t.endsInMark → next ≠ .rightAngle) :
    Sign.FitBefore (some next) ([.comma].intercalate (signsAll ts)) := by
  induction ts with
  | nil => trivial
  | cons t ts ih =>
    obtain ⟨ht, hts⟩ := List.forall_mem_cons.mp h
    cases ts with
    | nil =>
      rw [signsAll, signsAll, List.intercalate_singleton]
      refine ht _ hnext fun hmark s hs => ?_
      obtain rfl := Option.some.inj hs
      exact hlast t rfl hmark
    | cons u us =>
      obtain ⟨s, ss, hus, hs⟩ := exists_intercalate_eq u us
      have hrest := ih hts hlast
      rw [signsAll] at hus hrest
      rw [signsAll, signsAll, List.intercalate_cons_cons, Sign.fitBefore_append,
        Sign.fitBefore_append, hus]
      refine ⟨⟨ht.before rfl nofun, hs, trivial⟩, ?_⟩
      rw [← hus]
      exact hrest

/-- A parenthesis fits before whatever a type starts with. -/
theorem meets_leftParen (u : Sign) (hu : u.starts) : Sign.leftParen.meets (some u) := by
  cases u with
  | word | leftParen | leftBracket => rfl
  | _ => cases hu

/-- The signs of a tuple fit if those of its types do, and what follows its closing parenthesis
fits. -/
theorem fits_tuple {ts : List WrittenType} (h : ∀ t ∈ ts, t.Fits) {next : Option Sign}
    {closing : Sign} {ss : List Sign} (hclosing : ∃ spaced, closing = .rightParen spaced)
    (hss : Sign.FitBefore next (closing :: ss)) :
    Sign.FitBefore next (.leftParen :: ([.comma].intercalate (signsAll ts) ++ closing :: ss)) := by
  obtain ⟨spaced, rfl⟩ := hclosing
  rw [Sign.fitBefore_cons, Sign.fitBefore_append]
  refine ⟨?_, fitBefore_intercalate h rfl fun _ _ _ => nofun, hss⟩
  cases ts with
  | nil => rfl
  | cons t ts =>
    obtain ⟨s, ss, hts, hs⟩ := exists_intercalate_eq t ts
    rw [hts]
    exact meets_leftParen s hs

/-- Several types are closed if each of them is. -/
theorem allClosed_iff {ts : List WrittenType} : allClosed ts ↔ ∀ t ∈ ts, t.isClosed := by
  induction ts with
  | nil => simp [allClosed]
  | cons t ts ih => rw [allClosed, Bool.and_eq_true, ih, List.forall_mem_cons]

/-- A sign at the end of a type fits before what can follow the type. -/
theorem fits_last {s : Sign} {next : Option Sign} (hs : s.binds) (hnext : next.all Sign.follows)
    (hmark : s = .mark → ∀ u ∈ next, u ≠ .rightAngle) : Sign.FitBefore next [s] :=
  ⟨Sign.meets_of_follows hs hnext hmark, trivial⟩

/-- A sign before a type fits if types can follow it. -/
theorem meets_signs {s : Sign} {t : WrittenType} {ss : List Sign} {next : Option Sign}
    (h : ∀ u : Sign, u.starts → s.meets (some u)) : s.meets ((t.signs ++ ss).head?.or next) := by
  obtain ⟨u, us, ht, hu⟩ := t.exists_signs_eq
  rw [ht]
  exact h u hu

/-- The signs of a type fit before what can follow it, if no generic arguments in it end in a
question mark. Where they do, the question mark and the bracket behind it would be one operator. -/
theorem fits_of_isClosed {t : WrittenType} (h : t.isClosed) : t.Fits := by
  induction t using induct with
  | name n => exact fun next hnext _ => fits_last rfl hnext nofun
  | generic n t ts iht ihts =>
    intro next hnext _
    rw [isClosed, Bool.and_eq_true, Bool.and_eq_true, Bool.not_eq_true'] at h
    obtain ⟨⟨hlast, ht⟩, hts⟩ := h
    have hfits : ∀ u ∈ t :: ts, u.Fits :=
      List.forall_mem_cons.mpr ⟨iht ht, fun u hu => ihts u hu (allClosed_iff.mp hts u hu)⟩
    obtain ⟨s, ss, hargs, hs⟩ := exists_intercalate_eq t ts
    -- only here a sign could be read together with the `>` behind it
    have hnone : ∀ u ∈ (t :: ts).getLast?, u.endsInMark → Sign.rightAngle ≠ .rightAngle := by
      rw [List.getLast?_cons, ← List.getLastD_eq_getLast?]
      rintro _ ⟨⟩ hmark
      rw [hlast] at hmark
      cases hmark
    have hall := fitBefore_intercalate hfits rfl hnone
    rw [signsAll] at hargs hall
    rw [signs, Sign.fitBefore_cons, Sign.fitBefore_cons, Sign.fitBefore_append, hargs]
    rw [hargs] at hall
    exact ⟨rfl, hs, hall, fits_last rfl hnext nofun⟩
  | optional t ih =>
    intro next hnext hmark
    have hlast : Sign.FitBefore next [.mark] := fits_last rfl hnext fun _ => hmark rfl
    rw [signs, Sign.fitBefore_append]
    refine ⟨?_, hlast⟩
    split
    · rw [Sign.fitBefore_cons, Sign.fitBefore_append]
      exact ⟨meets_signs meets_leftParen, (ih h).before rfl nofun, rfl, trivial⟩
    · exact (ih h).before rfl nofun
  | array t ih =>
    intro next hnext _
    rw [signs, Sign.fitBefore_cons, Sign.fitBefore_append]
    exact ⟨meets_signs fun _ hu => hu, (ih h).before rfl nofun, fits_last rfl hnext nofun⟩
  | dictionary k v ihk ihv =>
    intro next hnext _
    rw [isClosed, Bool.and_eq_true] at h
    rw [signs, Sign.fitBefore_cons, Sign.fitBefore_append, Sign.fitBefore_cons,
      Sign.fitBefore_append]
    exact ⟨meets_signs fun _ hu => hu, (ihk h.1).before rfl nofun, meets_signs fun _ hu => hu,
      (ihv h.2).before rfl nofun, fits_last rfl hnext nofun⟩
  | tuple ts ih =>
    intro next hnext _
    exact fits_tuple (fun t ht => ih t ht (allClosed_iff.mp h t ht)) ⟨_, rfl⟩
      (fits_last rfl hnext nofun)
  | function ts r ihts ihr =>
    intro next hnext hmark
    rw [isClosed, Bool.and_eq_true] at h
    refine fits_tuple (fun t ht => ihts t ht (allClosed_iff.mp h.1 t ht)) ⟨_, rfl⟩ ⟨rfl, ?_⟩
    have hresult := ihr h.2 next hnext hmark
    refine ⟨?_, hresult⟩
    obtain ⟨s, ss, hr, hs⟩ := r.exists_signs_eq
    rw [hr]
    exact hs

end WrittenType

end SwiftTree
