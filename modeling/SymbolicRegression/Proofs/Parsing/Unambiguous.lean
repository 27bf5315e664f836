import SymbolicRegression.Expr.Grammar

/-!
# The grammar is unambiguous

Two derivations of the same tokens are the same tree. The induction needs the tokens behind as well:
two derivations in the same layer that begin the same list of tokens are the same and leave the same
tokens, provided that what they leave could not have been taken by the layer. That condition is a
property of one token: a name must not be followed by an opening parenthesis, a factor in addition
not by a power sign, a product not by a scaling, and a sum not by a sign.
-/

namespace SymbolicRegression

namespace Grammar

/-- The first token, if there is any, has the property. -/
def HeadIs (p : TokenKind → Bool) (kinds : List TokenKind) : Prop :=
  ∀ k rest, kinds = k :: rest → p k = true

/-- May the token follow an atom that another layer ends with? -/
def endsAtom : TokenKind → Bool
  | .leftParen => false
  | _ => true

/-- May the token follow a factor? -/
def endsFactor : TokenKind → Bool
  | .caret => false
  | .doubleStar => false
  | k => endsAtom k

/-- May the token follow a product? -/
def endsProduct : TokenKind → Bool
  | .star => false
  | .slash => false
  | k => endsFactor k

/-- May the token follow a sum? -/
def endsSum : TokenKind → Bool
  | .plus => false
  | .minus => false
  | k => endsProduct k

theorem HeadIs.mono {p q : TokenKind → Bool} {kinds : List TokenKind} (h : HeadIs p kinds)
    (hpq : ∀ k, p k = true → q k = true) : HeadIs q kinds :=
  fun k rest heq => hpq k (h k rest heq)

theorem HeadIs.cons {p : TokenKind → Bool} {k : TokenKind} {kinds : List TokenKind}
    (h : p k = true) : HeadIs p (k :: kinds) := by
  intro k' rest heq
  obtain ⟨rfl, -⟩ := List.cons.inj heq
  exact h

theorem HeadIs.nil {p : TokenKind → Bool} : HeadIs p [] := by
  intro k rest heq
  cases heq

theorem endsAtom_of_endsFactor (k : TokenKind) (h : endsFactor k = true) : endsAtom k = true := by
  cases k <;> first | rfl | exact absurd h (by decide)

theorem endsFactor_of_endsProduct (k : TokenKind) (h : endsProduct k = true) :
    endsFactor k = true := by
  cases k <;> first | rfl | exact absurd h (by decide)

theorem endsProduct_of_endsSum (k : TokenKind) (h : endsSum k = true) :
    endsProduct k = true := by
  cases k <;> first | rfl | exact absurd h (by decide)

/-! ## How derivations begin -/

/-- Is the token the first one of an atom? -/
def startsAtom : TokenKind → Bool
  | .number _ => true
  | .name _ => true
  | .leftParen => true
  | _ => false

theorem AtomTree.headIs_append (a : AtomTree) (rest : List TokenKind) :
    HeadIs startsAtom (a.kinds ++ rest) := by
  cases a <;> exact .cons rfl

theorem PowerTree.headIs_append (p : PowerTree) (rest : List TokenKind) :
    HeadIs startsAtom (p.kinds ++ rest) := by
  cases p with
  | bare base => exact base.headIs_append rest
  | raised base raising exponent =>
      rw [PowerTree.kinds, List.append_assoc]
      exact base.headIs_append _

/-- Is the token the first one of a sum? -/
def startsSum : TokenKind → Bool
  | .plus => true
  | .minus => true
  | k => startsAtom k

theorem SignedTree.headIs_append (f : SignedTree) (rest : List TokenKind) :
    HeadIs startsSum (f.kinds ++ rest) := by
  cases f with
  | sign sign factor => exact .cons (by cases sign <;> rfl)
  | power power =>
      refine (power.headIs_append rest).mono fun k h => ?_
      cases k <;> first | rfl | exact absurd h (by decide)

theorem SumTree.headIs_append (s : SumTree) (rest : List TokenKind) :
    HeadIs startsSum (s.kinds ++ rest) := by
  obtain ⟨⟨first, factors⟩, products⟩ := s
  rw [SumTree.kinds, ProductTree.kinds, List.append_assoc, List.append_assoc]
  exact first.headIs_append _

theorem RowTree.headIs_append (r : RowTree) (rest : List TokenKind) :
    HeadIs startsSum (r.kinds ++ rest) := by
  cases r with
  | last sum => exact sum.headIs_append rest
  | more sum others =>
      rw [RowTree.kinds, List.append_assoc]
      exact sum.headIs_append _

/-! ## What follows the first part of a layer -/

theorem ProductTail.headIs_append (p : ProductTail) {rest : List TokenKind}
    (h : HeadIs endsProduct rest) : HeadIs endsFactor (p.kinds ++ rest) := by
  cases p with
  | done => exact h.mono endsFactor_of_endsProduct
  | more scaling _ _ => exact .cons (by cases scaling <;> rfl)

theorem SumTail.headIs_append (s : SumTail) {rest : List TokenKind} (h : HeadIs endsSum rest) :
    HeadIs endsProduct (s.kinds ++ rest) := by
  cases s with
  | done => exact h.mono endsProduct_of_endsSum
  | more sign _ _ => exact .cons (by cases sign <;> rfl)

theorem Sign.kind_inj {s s' : Sign} (h : s.kind = s'.kind) : s = s' := by
  cases s <;> cases s' <;> first | rfl | cases h

theorem Scaling.kind_inj {s s' : Scaling} (h : s.kind = s'.kind) : s = s' := by
  cases s <;> cases s' <;> first | rfl | cases h

theorem Raising.kind_inj {r r' : Raising} (h : r.kind = r'.kind) : r = r' := by
  cases r <;> cases r' <;> first | rfl | cases h

/-! ## One tree for each list of tokens -/

mutual

theorem SumTree.unique : ∀ (s s' : SumTree) {rest rest' : List TokenKind},
    HeadIs endsSum rest → HeadIs endsSum rest' → s.kinds ++ rest = s'.kinds ++ rest' →
    s = s' ∧ rest = rest'
  | .mk p others, .mk p' others', rest, rest', hrest, hrest', h => by
      rw [SumTree.kinds, SumTree.kinds, List.append_assoc, List.append_assoc] at h
      obtain ⟨rfl, hothers⟩ := ProductTree.unique p p' (others.headIs_append hrest)
        (others'.headIs_append hrest') h
      obtain ⟨rfl, rfl⟩ := SumTail.unique others others' hrest hrest' hothers
      exact ⟨rfl, rfl⟩

theorem SumTail.unique : ∀ (s s' : SumTail) {rest rest' : List TokenKind},
    HeadIs endsSum rest → HeadIs endsSum rest' → s.kinds ++ rest = s'.kinds ++ rest' →
    s = s' ∧ rest = rest'
  | .done, .done, rest, rest', _, _, h => by
      rw [SumTail.kinds] at h
      exact ⟨rfl, h⟩
  | .done, .more sign _ _, rest, rest', hrest, _, h => by
      have := hrest sign.kind _ (by rw [SumTail.kinds, SumTail.kinds] at h; exact h)
      cases sign <;> cases this
  | .more sign _ _, .done, rest, rest', _, hrest', h => by
      have := hrest' sign.kind _ (by rw [SumTail.kinds, SumTail.kinds] at h; exact h.symm)
      cases sign <;> cases this
  | .more sign p others, .more sign' p' others', rest, rest', hrest, hrest', h => by
      rw [SumTail.kinds, SumTail.kinds, List.cons_append, List.cons_append,
        List.append_assoc, List.append_assoc] at h
      obtain ⟨hsign, hrow⟩ := List.cons.inj h
      obtain rfl := Sign.kind_inj hsign
      obtain ⟨rfl, hothers⟩ := ProductTree.unique p p' (others.headIs_append hrest)
        (others'.headIs_append hrest') hrow
      obtain ⟨rfl, rfl⟩ := SumTail.unique others others' hrest hrest' hothers
      exact ⟨rfl, rfl⟩

theorem ProductTree.unique : ∀ (p p' : ProductTree) {rest rest' : List TokenKind},
    HeadIs endsProduct rest → HeadIs endsProduct rest' → p.kinds ++ rest = p'.kinds ++ rest' →
    p = p' ∧ rest = rest'
  | .mk f others, .mk f' others', rest, rest', hrest, hrest', h => by
      rw [ProductTree.kinds, ProductTree.kinds, List.append_assoc, List.append_assoc] at h
      obtain ⟨rfl, hothers⟩ := SignedTree.unique f f' (others.headIs_append hrest)
        (others'.headIs_append hrest') h
      obtain ⟨rfl, rfl⟩ := ProductTail.unique others others' hrest hrest' hothers
      exact ⟨rfl, rfl⟩

theorem ProductTail.unique : ∀ (p p' : ProductTail) {rest rest' : List TokenKind},
    HeadIs endsProduct rest → HeadIs endsProduct rest' → p.kinds ++ rest = p'.kinds ++ rest' →
    p = p' ∧ rest = rest'
  | .done, .done, rest, rest', _, _, h => by
      rw [ProductTail.kinds] at h
      exact ⟨rfl, h⟩
  | .done, .more scaling _ _, rest, rest', hrest, _, h => by
      have := hrest scaling.kind _ (by rw [ProductTail.kinds, ProductTail.kinds] at h; exact h)
      cases scaling <;> cases this
  | .more scaling _ _, .done, rest, rest', _, hrest', h => by
      have := hrest' scaling.kind _
        (by rw [ProductTail.kinds, ProductTail.kinds] at h; exact h.symm)
      cases scaling <;> cases this
  | .more scaling f others, .more scaling' f' others', rest, rest', hrest, hrest', h => by
      rw [ProductTail.kinds, ProductTail.kinds, List.cons_append, List.cons_append,
        List.append_assoc, List.append_assoc] at h
      obtain ⟨hscaling, hrow⟩ := List.cons.inj h
      obtain rfl := Scaling.kind_inj hscaling
      obtain ⟨rfl, hothers⟩ := SignedTree.unique f f' (others.headIs_append hrest)
        (others'.headIs_append hrest') hrow
      obtain ⟨rfl, rfl⟩ := ProductTail.unique others others' hrest hrest' hothers
      exact ⟨rfl, rfl⟩

theorem SignedTree.unique : ∀ (f f' : SignedTree) {rest rest' : List TokenKind},
    HeadIs endsFactor rest → HeadIs endsFactor rest' → f.kinds ++ rest = f'.kinds ++ rest' →
    f = f' ∧ rest = rest'
  | .sign sign f, .sign sign' f', rest, rest', hrest, hrest', h => by
      rw [SignedTree.kinds, SignedTree.kinds, List.cons_append, List.cons_append] at h
      obtain ⟨hsign, hrow⟩ := List.cons.inj h
      obtain rfl := Sign.kind_inj hsign
      obtain ⟨rfl, rfl⟩ := SignedTree.unique f f' hrest hrest' hrow
      exact ⟨rfl, rfl⟩
  | .sign sign f, .power p, rest, rest', _, _, h => by
      rw [SignedTree.kinds, SignedTree.kinds] at h
      have := p.headIs_append rest' sign.kind _ h.symm
      cases sign <;> cases this
  | .power p, .sign sign f, rest, rest', _, _, h => by
      rw [SignedTree.kinds, SignedTree.kinds] at h
      have := p.headIs_append rest sign.kind _ h
      cases sign <;> cases this
  | .power p, .power p', rest, rest', hrest, hrest', h => by
      rw [SignedTree.kinds, SignedTree.kinds] at h
      obtain ⟨rfl, rfl⟩ := PowerTree.unique p p' hrest hrest' h
      exact ⟨rfl, rfl⟩

theorem PowerTree.unique : ∀ (p p' : PowerTree) {rest rest' : List TokenKind},
    HeadIs endsFactor rest → HeadIs endsFactor rest' → p.kinds ++ rest = p'.kinds ++ rest' →
    p = p' ∧ rest = rest'
  | .bare a, .bare a', rest, rest', hrest, hrest', h => by
      rw [PowerTree.kinds, PowerTree.kinds] at h
      obtain ⟨rfl, rfl⟩ := AtomTree.unique a a' (hrest.mono endsAtom_of_endsFactor)
        (hrest'.mono endsAtom_of_endsFactor) h
      exact ⟨rfl, rfl⟩
  | .bare a, .raised a' raising _, rest, rest', hrest, _, h => by
      rw [PowerTree.kinds, PowerTree.kinds, List.append_assoc] at h
      obtain ⟨-, rfl⟩ := AtomTree.unique a a' (hrest.mono endsAtom_of_endsFactor)
        (.cons (by cases raising <;> rfl)) h
      have := hrest raising.kind _ rfl
      cases raising <;> cases this
  | .raised a raising _, .bare a', rest, rest', _, hrest', h => by
      rw [PowerTree.kinds, PowerTree.kinds, List.append_assoc] at h
      obtain ⟨-, rfl⟩ := AtomTree.unique a a' (.cons (by cases raising <;> rfl))
        (hrest'.mono endsAtom_of_endsFactor) h
      have := hrest' raising.kind _ rfl
      cases raising <;> cases this
  | .raised a raising f, .raised a' raising' f', rest, rest', hrest, hrest', h => by
      rw [PowerTree.kinds, PowerTree.kinds, List.append_assoc, List.append_assoc] at h
      obtain ⟨rfl, hraised⟩ := AtomTree.unique a a' (.cons (by cases raising <;> rfl))
        (.cons (by cases raising' <;> rfl)) h
      obtain ⟨hraising, hfactor⟩ := List.cons.inj hraised
      obtain rfl := Raising.kind_inj hraising
      obtain ⟨rfl, rfl⟩ := SignedTree.unique f f' hrest hrest' hfactor
      exact ⟨rfl, rfl⟩

theorem AtomTree.unique : ∀ (a a' : AtomTree) {rest rest' : List TokenKind},
    HeadIs endsAtom rest → HeadIs endsAtom rest' → a.kinds ++ rest = a'.kinds ++ rest' →
    a = a' ∧ rest = rest'
  | .number v, a', rest, rest', _, _, h => by
      cases a' <;> simp [AtomTree.kinds] at h ⊢
      exact h
  | .name n, a', rest, rest', hrest, _, h => by
      cases a' <;> simp [AtomTree.kinds] at h ⊢
      case name => exact h
      case emptyCall => exact absurd (hrest .leftParen _ h.2) (by decide)
      case call => exact absurd (hrest .leftParen _ h.2) (by decide)
  | .emptyCall n, a', rest, rest', _, hrest', h => by
      cases a' <;> simp [AtomTree.kinds] at h ⊢
      case name => exact absurd (hrest' .leftParen _ h.2.symm) (by decide)
      case emptyCall => exact h
      case call row =>
        exact absurd (row.headIs_append _ .rightParen _ h.2.symm) (by decide)
  | .call n row, a', rest, rest', _, hrest', h => by
      cases a' <;> simp [AtomTree.kinds] at h ⊢
      case name => exact absurd (hrest' .leftParen _ h.2.symm) (by decide)
      case emptyCall => exact absurd (row.headIs_append _ .rightParen _ h.2) (by decide)
      case call n' row' =>
        obtain ⟨hrow, htail⟩ := RowTree.unique row row' h.2
        exact ⟨⟨h.1, hrow⟩, htail⟩
  | .parens s, a', rest, rest', _, _, h => by
      cases a' <;> simp [AtomTree.kinds] at h ⊢
      case parens s' =>
        obtain ⟨hsum, htail⟩ := SumTree.unique s s' (.cons rfl) (.cons rfl) h
        exact ⟨hsum, (List.cons.inj htail).2⟩

theorem RowTree.unique : ∀ (r r' : RowTree) {rest rest' : List TokenKind},
    r.kinds ++ .rightParen :: rest = r'.kinds ++ .rightParen :: rest' → r = r' ∧ rest = rest'
  | .last s, .last s', rest, rest', h => by
      rw [RowTree.kinds, RowTree.kinds] at h
      obtain ⟨rfl, hrest⟩ := SumTree.unique s s' (.cons rfl) (.cons rfl) h
      exact ⟨rfl, (List.cons.inj hrest).2⟩
  | .last s, .more s' others, rest, rest', h => by
      rw [RowTree.kinds, RowTree.kinds, List.append_assoc] at h
      obtain ⟨-, hrest⟩ := SumTree.unique s s' (.cons rfl) (.cons rfl) h
      cases hrest
  | .more s others, .last s', rest, rest', h => by
      rw [RowTree.kinds, RowTree.kinds, List.append_assoc] at h
      obtain ⟨-, hrest⟩ := SumTree.unique s s' (.cons rfl) (.cons rfl) h
      cases hrest
  | .more s others, .more s' others', rest, rest', h => by
      rw [RowTree.kinds, RowTree.kinds, List.append_assoc, List.append_assoc] at h
      obtain ⟨rfl, hothers⟩ := SumTree.unique s s' (.cons rfl) (.cons rfl) h
      obtain ⟨rfl, rfl⟩ := RowTree.unique others others' (List.cons.inj hothers).2
      exact ⟨rfl, rfl⟩

end

/-- Two derivations of the same tokens are the same. -/
theorem SumTree.kinds_injective {s s' : SumTree} (h : s.kinds = s'.kinds) : s = s' := by
  refine (SumTree.unique s s' .nil .nil ?_).1
  rw [h]

end Grammar

end SymbolicRegression
