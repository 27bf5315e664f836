import SymbolicRegression.Proofs.Expansion.Reading
import SymbolicRegression.Proofs.Results

/-!
# What can be expanded

Expansion fails for one reason only: a call of an unknown name, or with the wrong number of
arguments. Numbers play no part in that. So an expression can be expanded over one type of numbers
exactly if it can be expanded over any other, once its own numbers have been read anew.
-/

namespace SymbolicRegression

namespace Expr

mutual

/-- Every call has the number of arguments that its name takes. -/
def CallsFit {K : Type} (arity? : String → Option Nat) : Expr K → Prop
  | number _ => True
  | name _ => True
  | neg e => CallsFit arity? e
  | binary _ l r => CallsFit arity? l ∧ CallsFit arity? r
  | call f arguments => arity? f = some arguments.length ∧ CallsFitAll arity? arguments

def CallsFitAll {K : Type} (arity? : String → Option Nat) : List (Expr K) → Prop
  | [] => True
  | e :: es => CallsFit arity? e ∧ CallsFitAll arity? es

end

section Numbers

variable {A B C : Type} {arity? : String → Option Nat}

theorem length_mapNumbersAll (f : A → B) (es : List (Expr A)) :
    (mapNumbersAll f es).length = es.length := by
  induction es with
  | nil => rfl
  | cons e es ih => rw [mapNumbersAll, List.length_cons, ih, List.length_cons]

mutual

theorem CallsFit.mapNumbers (f : A → B) :
    ∀ {e : Expr A}, e.CallsFit arity? → (e.mapNumbers f).CallsFit arity?
  | .number _, _ => trivial
  | .name _, _ => trivial
  | .neg e, h => by
      rw [Expr.mapNumbers, CallsFit]
      exact CallsFit.mapNumbers f h
  | .binary _ l r, h => by
      rw [Expr.mapNumbers, CallsFit]
      exact ⟨CallsFit.mapNumbers f h.1, CallsFit.mapNumbers f h.2⟩
  | .call g arguments, h => by
      rw [Expr.mapNumbers, CallsFit, length_mapNumbersAll]
      exact ⟨h.1, CallsFitAll.mapNumbersAll f h.2⟩

theorem CallsFitAll.mapNumbersAll (f : A → B) :
    ∀ {es : List (Expr A)}, CallsFitAll arity? es → CallsFitAll arity? (mapNumbersAll f es)
  | [], _ => trivial
  | _ :: _, h => ⟨CallsFit.mapNumbers f h.1, CallsFitAll.mapNumbersAll f h.2⟩

end

mutual

theorem mapNumbers_mapNumbers (g : B → C) (f : A → B) :
    ∀ e : Expr A, (e.mapNumbers f).mapNumbers g = e.mapNumbers fun c => g (f c)
  | .number _ => rfl
  | .name _ => rfl
  | .neg e => by
      rw [mapNumbers, mapNumbers, mapNumbers, mapNumbers_mapNumbers g f e]
  | .binary _ l r => by
      rw [mapNumbers, mapNumbers, mapNumbers, mapNumbers_mapNumbers g f l,
        mapNumbers_mapNumbers g f r]
  | .call _ arguments => by
      rw [mapNumbers, mapNumbers, mapNumbers, mapNumbersAll_mapNumbersAll g f arguments]

theorem mapNumbersAll_mapNumbersAll (g : B → C) (f : A → B) :
    ∀ es : List (Expr A),
      mapNumbersAll g (mapNumbersAll f es) = mapNumbersAll (fun c => g (f c)) es
  | [] => rfl
  | e :: es => by
      rw [mapNumbersAll, mapNumbersAll, mapNumbersAll, mapNumbers_mapNumbers g f e,
        mapNumbersAll_mapNumbersAll g f es]

end

end Numbers

section Expansion

variable {K : Type} [Coefficient K] {meaning? : String → Option (Meaning K)}
  {value? : Option (String → K)}

mutual

theorem callsFit_of_expand :
    ∀ {e : Expr K} {p : Polynomial K}, e.expand meaning? value? = .ok p →
      e.CallsFit fun f => (meaning? f).map Meaning.arity
  | .number _, _, _ => trivial
  | .name _, _, _ => trivial
  | .neg e, p, h => by
      rw [expand] at h
      obtain ⟨q, he, -⟩ := bind_eq_ok h
      rw [CallsFit]
      exact callsFit_of_expand he
  | .binary op l r, p, h => by
      rw [expand] at h
      obtain ⟨q, hl, h⟩ := bind_eq_ok h
      obtain ⟨s, hr, -⟩ := bind_eq_ok h
      rw [CallsFit]
      exact ⟨callsFit_of_expand hl, callsFit_of_expand hr⟩
  | .call f arguments, p, h => by
      rw [expand] at h
      split at h
      · cases h
      · next meaning hmeaning =>
          split at h
          · cases h
          · next harity =>
              obtain ⟨ps, hes, -⟩ := bind_eq_ok h
              rw [CallsFit, hmeaning, Option.map_some]
              exact ⟨congrArg some (not_not.mp harity), callsFitAll_of_expandAll hes⟩

theorem callsFitAll_of_expandAll :
    ∀ {es : List (Expr K)} {ps : List (Polynomial K)},
      expandAll meaning? value? es = .ok ps →
      CallsFitAll (fun f => (meaning? f).map Meaning.arity) es
  | [], _, _ => trivial
  | e :: es, ps, h => by
      rw [expandAll] at h
      obtain ⟨p, he, h⟩ := bind_eq_ok h
      obtain ⟨ps', hes, -⟩ := bind_eq_ok h
      exact ⟨callsFit_of_expand he, callsFitAll_of_expandAll hes⟩

end

mutual

theorem exists_expand :
    ∀ (e : Expr K), (e.CallsFit fun f => (meaning? f).map Meaning.arity) →
      ∃ p, e.expand meaning? value? = .ok p
  | .number _, _ => ⟨_, by rw [expand]⟩
  | .name _, _ => by
      cases value? with
      | none => exact ⟨_, by rw [expand]⟩
      | some value => exact ⟨_, by rw [expand]⟩
  | .neg e, h => by
      obtain ⟨p, hp⟩ := exists_expand e h
      exact ⟨_, by rw [expand, hp]; rfl⟩
  | .binary op l r, h => by
      obtain ⟨p, hp⟩ := exists_expand l h.1
      obtain ⟨q, hq⟩ := exists_expand r h.2
      exact ⟨_, by simp only [expand, hp, hq, bind, Except.bind]; rfl⟩
  | .call f arguments, h => by
      obtain ⟨harity, hall⟩ := h
      obtain ⟨meaning, hmeaning, hlength⟩ := Option.map_eq_some_iff.mp harity
      obtain ⟨ps, hps⟩ := exists_expandAll arguments hall
      refine ⟨Polynomial.call f meaning ps, ?_⟩
      simp only [expand, hmeaning, hps, bind, Except.bind]
      rw [if_neg (fun hne => hne hlength)]
      rfl

theorem exists_expandAll :
    ∀ (es : List (Expr K)), CallsFitAll (fun f => (meaning? f).map Meaning.arity) es →
      ∃ ps, expandAll meaning? value? es = .ok ps
  | [], _ => ⟨_, by rw [expandAll]⟩
  | e :: es, h => by
      obtain ⟨p, hp⟩ := exists_expand e h.1
      obtain ⟨ps, hps⟩ := exists_expandAll es h.2
      exact ⟨p :: ps, by simp only [expandAll, hp, hps, bind, Except.bind]; rfl⟩

end

end Expansion

/-- What can be expanded over doubles can be expanded over the numbers of a reading. -/
theorem exists_expand_mapNumbers {K F : Type} [Coefficient K] {R : Reading K F} {r : Registry}
    {value? : Option (String → Float)} {e : Expr Float} {p : Formula}
    (h : e.expand r.meaning? value? = .ok p) (substituted? : Option (String → K)) :
    ∃ q, (e.mapNumbers R.number).expand (R.meaning? r) substituted? = .ok q := by
  refine exists_expand _ ?_
  have harity : (fun f => (R.meaning? r f).map Meaning.arity) =
      fun f => (r.meaning? f).map Meaning.arity := by
    funext f
    rw [Reading.meaning?, Option.map_map]
    rfl
  rw [harity]
  exact (callsFit_of_expand h).mapNumbers R.number

end Expr

end SymbolicRegression
