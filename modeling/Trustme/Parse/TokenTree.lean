/-
  Subject:   Token trees (parse_tokentree.h) and the two streams over them (parse_ttstream.cpp).

  * `TokenTree`: a token, or the trees of a group;
  * `leaves`, `leavesAll`: its tokens, each with its edition and hygiene;
  * `TTStream`, `realGetToken`: the stack of the places in the trees that are open;
  * `drained_start`: a stream over a tree gives its leaves in order, and then ends of files.

  `TTStreamO` owns its tree and moves the tokens out of it. A token is never read twice, and the two
  streams differ in what they do with a tree that is one token, and in the edition after the last
  token.
-/
import Trustme.Parse.TokenStream

namespace Trustme.Parse

open Metadata (eTokenType)

variable {Tok Ed Hyg : Type}

/-! ## 1. Trees -/

/-- What is known of tokens: `Token()` is null, and `Token(TOK_EOF)` is the end of a file. -/
structure Tokens (Tok : Type) where
  type : Tok → eTokenType
  recorded : Tok → Tok
  null : Tok
  eof : Tok
  type_null : type null = .TOK_NULL
  type_eof : type eof = .TOK_EOF

/-- A source of such tokens. -/
def Tokens.reader {σ : Type} (K : Tokens Tok) (next : σ → Entry Tok Ed Hyg × σ) :
    Reader σ Tok Ed Hyg where
  next := next
  type := K.type
  recorded := K.recorded

/-- The constructors of `TokenTree` that set an edition and a hygiene. -/
inductive TokenTree (Tok Ed Hyg : Type) where
  | token (edition : Ed) (hygiene : Hyg) (tok : Tok)
  | group (edition : Ed) (hygiene : Hyg) (subtrees : List (TokenTree Tok Ed Hyg))

namespace TokenTree

def getEdition : TokenTree Tok Ed Hyg → Ed
  | token edition _ _ => edition
  | group edition _ _ => edition

def hygiene : TokenTree Tok Ed Hyg → Hyg
  | token _ hygiene _ => hygiene
  | group _ hygiene _ => hygiene

def subtrees : TokenTree Tok Ed Hyg → List (TokenTree Tok Ed Hyg)
  | token _ _ _ => []
  | group _ _ subtrees => subtrees

def size (t : TokenTree Tok Ed Hyg) : Nat := t.subtrees.length

variable (K : Tokens Tok)

/-- A group has the token `Token()`. -/
def tok : TokenTree Tok Ed Hyg → Tok
  | token _ _ tok => tok
  | group _ _ _ => K.null

def isToken (t : TokenTree Tok Ed Hyg) : Bool := K.type (t.tok K) != .TOK_NULL

def entry (t : TokenTree Tok Ed Hyg) : Entry Tok Ed Hyg := ⟨t.tok K, t.getEdition, t.hygiene⟩

mutual

/-- A group without subtrees is read as its token. -/
def leaves : TokenTree Tok Ed Hyg → List (Entry Tok Ed Hyg)
  | token edition hygiene tok => [⟨tok, edition, hygiene⟩]
  | group edition hygiene [] => [⟨K.null, edition, hygiene⟩]
  | group _ _ (t :: ts) => leaves t ++ leavesAll ts

def leavesAll : List (TokenTree Tok Ed Hyg) → List (Entry Tok Ed Hyg)
  | [] => []
  | t :: ts => leaves t ++ leavesAll ts

end

mutual

def weight : TokenTree Tok Ed Hyg → Nat
  | token _ _ _ => 2
  | group _ _ ts => weightAll ts + 2

def weightAll : List (TokenTree Tok Ed Hyg) → Nat
  | [] => 0
  | t :: ts => weight t + weightAll ts

end

variable {K}

variable {t : TokenTree Tok Ed Hyg}

theorem leaves_of_size_zero (h : t.size = 0) : t.leaves K = [t.entry K] := by
  cases t with
  | token edition hygiene tok => rw [leaves]; rfl
  | group edition hygiene ts =>
    obtain rfl : ts = [] := List.length_eq_zero_iff.mp h
    rw [leaves]
    rfl

theorem leaves_of_size (h : t.size ≠ 0) : t.leaves K = leavesAll K t.subtrees := by
  cases t with
  | token edition hygiene tok => exact absurd rfl h
  | group edition hygiene ts =>
    cases ts with
    | nil => exact absurd rfl h
    | cons t ts => rw [leaves, subtrees, leavesAll]

theorem not_isToken (h : t.size ≠ 0) : t.isToken K = false := by
  cases t with
  | token edition hygiene tok => exact absurd rfl h
  | group edition hygiene ts =>
    rw [isToken, tok, K.type_null]
    rfl

theorem weight_eq (t : TokenTree Tok Ed Hyg) : t.weight = weightAll t.subtrees + 2 := by
  cases t with
  | token edition hygiene tok => rw [weight, subtrees, weightAll]
  | group edition hygiene ts => rw [weight, subtrees]

theorem leavesAll_append (ts us : List (TokenTree Tok Ed Hyg)) :
    leavesAll K (ts ++ us) = leavesAll K ts ++ leavesAll K us := by
  induction ts with
  | nil => rw [List.nil_append, leavesAll, List.nil_append]
  | cons t ts ih => rw [List.cons_append, leavesAll, leavesAll, ih, List.append_assoc]

end TokenTree

/-! ## 2. Streams -/

open TokenTree

/-- The two streams: a `TTStreamO` looks at the token of its tree, and a `TTStream` keeps the
    edition of the tree it is in. -/
inductive TreeStream where
  | TTStream
  | TTStreamO
deriving DecidableEq

/-- The open trees, the innermost first, each with the index of its next subtree. The pointer to a
    hygiene is null before the first token. -/
structure TTStream (Tok Ed Hyg : Type) where
  stack : List (Nat × TokenTree Tok Ed Hyg)
  edition : Ed
  hygienePtr : Option Hyg

namespace TTStream

/-- How much is left to read. -/
def left : List (Nat × TokenTree Tok Ed Hyg) → Nat
  | [] => 0
  | (idx, tree) :: stack => weightAll (tree.subtrees.drop idx) + 1 + left stack

theorem left_enter {idx : Nat} {tree : TokenTree Tok Ed Hyg}
    {stack : List (Nat × TokenTree Tok Ed Hyg)}
    (h : idx < tree.subtrees.length) :
    left ((0, tree.subtrees[idx]) :: (idx + 1, tree) :: stack) < left ((idx, tree) :: stack) := by
  rw [left, left, left, List.drop_eq_getElem_cons h, weightAll, weight_eq, List.drop_zero]
  omega

variable (K : Tokens Tok)

/-- Where the edition goes when the innermost tree is done. -/
def editionAfter (kind : TreeStream) (edition : Ed) : List (Nat × TokenTree Tok Ed Hyg) → Ed
  | [] => edition
  | (_, tree) :: _ => if kind = .TTStream then tree.getEdition else edition

def realGetToken (kind : TreeStream) (s : TTStream Tok Ed Hyg) : Tok × TTStream Tok Ed Hyg :=
  match hstack : s.stack with
  | [] => (K.eof, s)
  | (idx, tree) :: stack =>
    if kind = .TTStreamO ∧ idx = 0 ∧ tree.isToken K then
      (tree.tok K, ⟨(idx + 1, tree) :: stack, tree.getEdition, some tree.hygiene⟩)
    else if h : idx < tree.subtrees.length then
      let subtree := tree.subtrees[idx]
      if subtree.size = 0 then
        (subtree.tok K, ⟨(idx + 1, tree) :: stack, subtree.getEdition, some subtree.hygiene⟩)
      else
        realGetToken kind ⟨(0, subtree) :: (idx + 1, tree) :: stack,
          if kind = .TTStream then subtree.getEdition else s.edition, s.hygienePtr⟩
    else realGetToken kind ⟨stack, editionAfter kind s.edition stack, s.hygienePtr⟩
termination_by left s.stack
decreasing_by
  · rw [hstack]
    exact left_enter h
  · rw [hstack, left]
    omega

/-- The hygiene of a null pointer is `Ident::Hygiene()`. -/
def reader (kind : TreeStream) (noHygiene : Hyg) : Reader (TTStream Tok Ed Hyg) Tok Ed Hyg :=
  K.reader fun s => (⟨(s.realGetToken K kind).1, (s.realGetToken K kind).2.edition,
    (s.realGetToken K kind).2.hygienePtr.getD noHygiene⟩, (s.realGetToken K kind).2)

/-- The constructors: a `TTStream` starts with the edition of its tree. -/
def start (kind : TreeStream) (rust2015 : Ed) (tree : TokenTree Tok Ed Hyg) : TTStream Tok Ed Hyg :=
  ⟨[(0, tree)], if kind = .TTStream then tree.getEdition else rust2015, none⟩

/-! ## 3. What is left -/

/-- The tokens of one open tree. -/
def restOf (kind : TreeStream) : Nat × TokenTree Tok Ed Hyg → List (Entry Tok Ed Hyg)
  | (idx, tree) =>
    if kind = .TTStreamO ∧ idx = 0 ∧ tree.isToken K then [tree.entry K]
    else leavesAll K (tree.subtrees.drop idx)

def rest (kind : TreeStream) (stack : List (Nat × TokenTree Tok Ed Hyg)) :
    List (Entry Tok Ed Hyg) :=
  stack.flatMap (restOf K kind)

variable {K} {kind : TreeStream}

theorem restOf_succ (idx : Nat) (tree : TokenTree Tok Ed Hyg) :
    restOf K kind (idx + 1, tree) = leavesAll K (tree.subtrees.drop (idx + 1)) :=
  if_neg fun h => Nat.succ_ne_zero idx h.2.1

theorem restOf_group {tree : TokenTree Tok Ed Hyg} (h : tree.size ≠ 0) :
    restOf K kind (0, tree) = tree.leaves K := by
  rw [leaves_of_size h]
  exact if_neg fun hbad => absurd (not_isToken (K := K) h) (by rw [hbad.2.2]; decide)

/-- What a read gives, of the tokens that are left. -/
def Gives (K : Tokens Tok) (kind : TreeStream) : List (Entry Tok Ed Hyg) →
    Tok × TTStream Tok Ed Hyg → Prop
  | [], r => r.1 = K.eof ∧ r.2.stack = []
  | e :: l, r =>
    r.1 = e.tok ∧ r.2.edition = e.edition ∧ r.2.hygienePtr = some e.hygiene ∧
      rest K kind r.2.stack = l

variable (K kind) in
theorem realGetToken_gives (s : TTStream Tok Ed Hyg) :
    Gives K kind (rest K kind s.stack) (s.realGetToken K kind) := by
  fun_induction realGetToken K kind s with
  | case1 s hstack => rw [hstack]; exact ⟨rfl, hstack⟩
  | case2 s idx tree stack hstack htoken =>
    have hsize : tree.size = 0 := by
      by_contra hsize
      exact absurd (not_isToken (K := K) hsize) (by rw [htoken.2.2]; decide)
    have hnone : tree.subtrees = [] := List.length_eq_zero_iff.mp hsize
    rw [hstack, rest, List.flatMap_cons, restOf, if_pos htoken]
    refine ⟨rfl, rfl, rfl, ?_⟩
    rw [rest, List.flatMap_cons, restOf_succ, hnone, List.drop_nil, leavesAll]
    rfl
  | case3 s idx tree stack hstack htoken hidx subtree hsize =>
    have hleaf : restOf K kind (idx, tree) = subtree.entry K :: restOf K kind (idx + 1, tree) := by
      rw [restOf, if_neg htoken, List.drop_eq_getElem_cons hidx, leavesAll,
        leaves_of_size_zero hsize, restOf_succ]
      rfl
    rw [hstack, rest, List.flatMap_cons, hleaf]
    exact ⟨rfl, rfl, rfl, List.flatMap_cons⟩
  | case4 s idx tree stack hstack htoken hidx subtree hsize ih =>
    have hgroup : restOf K kind (idx, tree) = restOf K kind (0, subtree) ++
      restOf K kind (idx + 1, tree) := by
      rw [restOf, if_neg htoken, List.drop_eq_getElem_cons hidx, leavesAll, restOf_group hsize,
        restOf_succ]
    rw [hstack, rest, List.flatMap_cons, hgroup, List.append_assoc]
    exact ih
  | case5 s idx tree stack hstack htoken hidx ih =>
    have hnone : restOf K kind (idx, tree) = [] := by
      rw [restOf, if_neg htoken, List.drop_eq_nil_of_le (Nat.not_lt.mp hidx), leavesAll]
    rw [hstack, rest, List.flatMap_cons, hnone, List.nil_append]
    exact ih

/-- At the end nothing is read any more. -/
theorem realGetToken_end {s : TTStream Tok Ed Hyg} (h : s.stack = []) :
    s.realGetToken K kind = (K.eof, s) := by
  rw [realGetToken]
  split
  · rfl
  · next hstack =>
    rw [h] at hstack
    cases hstack

/-! ## 4. All that a stream gives -/

variable {noHygiene : Hyg}

open TokenStream in
theorem drained_end {s : TTStream Tok Ed Hyg} (h : s.stack = []) :
    drained (reader K kind noHygiene) s = Stream'.const
      ⟨K.eof, s.edition, s.hygienePtr.getD noHygiene⟩ := by
  have hnext : (reader K kind noHygiene).next s =
    (⟨K.eof, s.edition, s.hygienePtr.getD noHygiene⟩, s) := by
    rw [reader, Tokens.reader]
    dsimp only
    rw [realGetToken_end h]
  refine Stream'.ext fun n => ?_
  induction n with
  | zero =>
    rw [drained_eq, hnext]
    rfl
  | succ n ih =>
    rw [drained_eq, hnext]
    exact ih

open TokenStream in
/-- A stream gives the tokens that are left, and then ends of files. -/
theorem drained_rest :
    ∀ (l : List (Entry Tok Ed Hyg)) (s : TTStream Tok Ed Hyg), rest K kind s.stack = l →
    ∃ edition hygiene, drained (reader K kind noHygiene) s = l ++ₛ
      Stream'.const ⟨K.eof, edition, hygiene⟩
  | [], s, h => by
    have hgives := realGetToken_gives K kind s
    rw [h] at hgives
    obtain ⟨htok, hend⟩ := hgives
    refine ⟨(s.realGetToken K kind).2.edition,
      (s.realGetToken K kind).2.hygienePtr.getD noHygiene, ?_⟩
    rw [drained_eq, Stream'.nil_append_stream]
    conv_rhs => rw [Stream'.const_eq]
    show Stream'.cons _ (drained _ (s.realGetToken K kind).2) = _
    rw [drained_end hend, ← htok]
    rfl
  | e :: l, s, h => by
    have hgives := realGetToken_gives K kind s
    rw [h] at hgives
    obtain ⟨htok, hedition, hhygiene, hrest⟩ := hgives
    obtain ⟨edition, hygiene, ih⟩ := drained_rest l _ hrest
    refine ⟨edition, hygiene, ?_⟩
    have hentry : ((reader K kind noHygiene).next s).1 = e := by
      show Entry.mk (s.realGetToken K kind).1 (s.realGetToken K kind).2.edition
        ((s.realGetToken K kind).2.hygienePtr.getD noHygiene) = e
      rw [htok, hedition, hhygiene]
      rfl
    rw [drained_eq, hentry, Stream'.cons_append_stream]
    exact congrArg _ ih

/-- What a stream over a tree gives. -/
def given (K : Tokens Tok) (kind : TreeStream) (tree : TokenTree Tok Ed Hyg) :
    List (Entry Tok Ed Hyg) :=
  if kind = .TTStreamO ∧ tree.isToken K then [tree.entry K] else leavesAll K tree.subtrees

variable (K kind noHygiene) in
theorem drained_start (rust2015 : Ed) (tree : TokenTree Tok Ed Hyg) : ∃ edition hygiene,
    TokenStream.drained (reader K kind noHygiene) (start kind rust2015 tree) =
      given K kind tree ++ₛ Stream'.const ⟨K.eof, edition, hygiene⟩ := by
  refine drained_rest _ _ ?_
  rw [start, rest, List.flatMap_cons, List.flatMap_nil, List.append_nil, restOf, given,
    List.drop_zero]
  simp only [true_and]

end TTStream

end Trustme.Parse
