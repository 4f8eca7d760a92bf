import GradedModal.Proofs.Existentials
import GradedModal.Proofs.Remainder

/-!
This module says when the variables that a pattern binds in place of grades stay in the scope of the pattern. They can
leave it only through the type that is synthesized for a branch: whatever else leaves a branch mentions the variables
of its surroundings. So it is enough that a case whose type is synthesized has no such patterns, or branches whose type
does not depend on what the patterns bind.
-/

namespace GradedModal

open CheckM Context

namespace Ty

/--
A type of which nothing is known.
-/
def unknown : Ty :=
  .const "_"

/--
A type tells about the shape of another: where it is a function, box, computation or pair, so is the other one.
-/
def Outlines : Ty → Ty → Prop
  | .arrow _ b, t => ∃ a' b', t = .arrow a' b' ∧ b.Outlines b'
  | .box _ ty, t => ∃ grade ty', t = .box grade ty' ∧ ty.Outlines ty'
  | .diamond _ ty, t => ∃ effects ty', t = .diamond effects ty' ∧ ty.Outlines ty'
  | .pair a b, t => ∃ a' b', t = .pair a' b' ∧ a.Outlines a' ∧ b.Outlines b'
  | _, _ => True

theorem outlines_unknown (ty : Ty) : unknown.Outlines ty :=
  trivial

theorem outlines_substitute (ty : Ty) (subst : Substitution) : ty.Outlines (ty.substitute subst) := by
  induction ty with
  | arrow a b _ ih | box grade ty ih | diamond effects ty ih => exact ⟨_, _, rfl, ih⟩
  | pair a b iha ihb => exact ⟨_, _, rfl, iha, ihb⟩
  | _ => trivial

theorem outlines_refl (ty : Ty) : ty.Outlines ty := by
  induction ty with
  | arrow a b _ ih | box grade ty ih | diamond effects ty ih => exact ⟨_, _, rfl, ih⟩
  | pair a b iha ihb => exact ⟨_, _, rfl, iha, ihb⟩
  | _ => trivial

def codomain? : Ty → Option Ty
  | .arrow _ b => some b
  | _ => none

def boxContent? : Ty → Option Ty
  | .box _ ty => some ty
  | _ => none

def diamondContent? : Ty → Option Ty
  | .diamond _ ty => some ty
  | _ => none

def first? : Ty → Option Ty
  | .pair a _ => some a
  | _ => none

def second? : Ty → Option Ty
  | .pair _ b => some b
  | _ => none

end Ty

def Ty.IsPart (part : Ty → Option Ty) : Prop :=
  ∀ t t' b, t.Outlines t' → part t = some b → ∃ b', part t' = some b' ∧ b.Outlines b'

namespace Ty

theorem isPart_codomain? : IsPart codomain? := by
  intro t t' b houtlines hb
  cases t with
  | arrow a b =>
    cases hb
    obtain ⟨a', b', rfl, hb⟩ := houtlines
    exact ⟨b', rfl, hb⟩
  | _ => cases hb

theorem isPart_boxContent? : IsPart boxContent? := by
  intro t t' b houtlines hb
  cases t with
  | box grade content =>
    cases hb
    obtain ⟨grade', content', rfl, hcontent⟩ := houtlines
    exact ⟨content', rfl, hcontent⟩
  | _ => cases hb

theorem isPart_diamondContent? : IsPart diamondContent? := by
  intro t t' b houtlines hb
  cases t with
  | diamond effects content =>
    cases hb
    obtain ⟨effects', content', rfl, hcontent⟩ := houtlines
    exact ⟨content', rfl, hcontent⟩
  | _ => cases hb

theorem isPart_first? : IsPart first? := by
  intro t t' b houtlines hb
  cases t with
  | pair a b =>
    cases hb
    obtain ⟨a', b', rfl, ha, _⟩ := houtlines
    exact ⟨a', rfl, ha⟩
  | _ => cases hb

theorem isPart_second? : IsPart second? := by
  intro t t' b houtlines hb
  cases t with
  | pair a b =>
    cases hb
    obtain ⟨a', b', rfl, _, hb⟩ := houtlines
    exact ⟨b', rfl, hb⟩
  | _ => cases hb

end Ty

/--
A condition on the type that is expected of a part of an expression, if one is, given the type that is expected of the
whole. If the expected type is known to have the part, the part is checked against it. If it may have the part, there
are two possibilities.
-/
def partially (confined : Option Ty → Bool) (part : Ty → Option Ty) : Option Ty → Bool
  | none => confined none
  | some ty =>
    match part ty with
    | some ty => confined (some ty)
    | none => confined none && confined (some .unknown)

theorem partially_some {confined : Option Ty → Bool} {part : Ty → Option Ty} {ty b : Ty}
    (h : partially confined part (some ty) = true) (hb : part ty = some b) : confined (some b) = true := by
  simpa [partially, hb] using h

theorem partially_none {confined : Option Ty → Bool} {part : Ty → Option Ty} {expected : Option Ty}
    (h : partially confined part expected = true) (hpart : ∀ ty, expected = some ty → part ty = none)
    : confined none = true := by
  cases expected with
  | none => exact h
  | some ty =>
    simp only [partially, hpart ty rfl, Bool.and_eq_true] at h
    exact h.1

theorem partially_mono {confined : Option Ty → Bool} {part : Ty → Option Ty} {ty ty' : Ty}
    (h : partially confined part (some ty) = true) (hpart : Ty.IsPart part) (houtlines : ty.Outlines ty')
    (hconfined : ∀ t t', confined (some t) = true → t.Outlines t' → confined (some t') = true)
    : partially confined part (some ty') = true := by
  cases hb : part ty with
  | some b =>
    obtain ⟨b', hb', hbb'⟩ := hpart ty ty' b houtlines hb
    simp only [partially, hb, hb'] at h ⊢
    exact hconfined b b' h hbb'
  | none =>
    simp only [partially, hb, Bool.and_eq_true] at h
    cases hb' : part ty' with
    | some b' =>
      simp only [partially, hb']
      exact hconfined .unknown b' h.2 (Ty.outlines_unknown b')
    | none =>
      simp only [partially, hb', Bool.and_eq_true]
      exact h

namespace Expr

mutual

/--
The annotations of an expression have no variables with a dot in their names.
-/
def isDotless : Expr → Bool
  | .int _ _ => true
  | .float _ _ => true
  | .var _ _ => true
  | .constructor _ _ => true
  | .lam _ _ ty body => ty.all Ty.isDotless && body.isDotless
  | .app _ f a => f.isDotless && a.isDotless
  | .promote _ e => e.isDotless
  | .lift _ e => e.isDotless
  | .binop _ _ a b => a.isDotless && b.isDotless
  | .pair _ a b => a.isDotless && b.isDotless
  | .case _ scrutinee branches => scrutinee.isDotless && areDotless branches
  | .letDiamond _ _ ty value rest => ty.all Ty.isDotless && value.isDotless && rest.isDotless
  | .letBox _ _ ty value rest => ty.isDotless && value.isDotless && rest.isDotless

def areDotless : List (Pattern × Expr) → Bool
  | [] => true
  | (_, body) :: branches => body.isDotless && areDotless branches

end

mutual

/--
Whether the type that is synthesized for an expression does not depend on the types of its variables.
-/
def isGround : Expr → Bool
  | .int _ _ => true
  | .float _ _ => true
  | .constructor _ _ => true
  | .lam _ _ _ body => body.isGround
  | .promote _ e => e.isGround
  | .lift _ e => e.isGround
  | .binop _ _ _ _ => true
  | .pair _ a b => a.isGround && b.isGround
  | .case _ _ branches => areGround branches
  | .letDiamond _ _ _ _ rest => rest.isGround
  | .letBox _ _ _ _ rest => rest.isGround
  | _ => false

def areGround : List (Pattern × Expr) → Bool
  | [] => true
  | (_, body) :: branches => body.isGround && areGround branches

end

/--
Whether the application of an expression may scale a real by a literal.
-/
def isScaling : Expr → Bool
  | .app _ (.var _ name) (.float _ _) => name = "scale"
  | _ => false

mutual

/--
Whether no variable can leave the scope of a pattern that binds it in place of a grade, in an expression of which a type
with the given outline is expected, if one is: each case whose type is synthesized has branches without such patterns
or with types that do not depend on them.
-/
def isConfined (env : Env) : Expr → Option Ty → Bool
  | .int _ _, _ => true
  | .float _ _, _ => true
  | .var _ _, _ => true
  | .constructor _ _, _ => true
  | .lam _ _ (some _) body, expected => partially (body.isConfined env ·) Ty.codomain? expected
  -- Without an annotation, a function can only be checked.
  | .lam _ _ none body, expected => body.isConfined env (some ((expected.bind Ty.codomain?).getD .unknown))
  | .app _ f a, none => f.isConfined env none && a.isConfined env (some .unknown)
  | .app _ f a, some ty =>
    f.isConfined env (some (.arrow .unknown ty)) && a.isConfined env none &&
      (!f.isScaling || a.isConfined env (some (.box (.nat 0) (.const "Float"))))
  | .promote _ e, expected => partially (e.isConfined env ·) Ty.boxContent? expected
  | .lift _ e, expected => partially (e.isConfined env ·) Ty.diamondContent? expected
  | .binop _ _ a b, _ => a.isConfined env (some .unknown) && b.isConfined env (some .unknown)
  | .pair _ a b, expected =>
    partially (a.isConfined env ·) Ty.first? expected && partially (b.isConfined env ·) Ty.second? expected
  | .case _ scrutinee branches, expected => scrutinee.isConfined env none && areConfined env branches expected
  | .letDiamond _ _ _ value rest, _ => value.isConfined env none && rest.isConfined env none
  | .letBox _ _ ty value rest, _ => value.isConfined env (some (.box (.nat 0) ty)) && rest.isConfined env none

def areConfined (env : Env) : List (Pattern × Expr) → Option Ty → Bool
  | [], _ => true
  | (pattern, body) :: branches, expected =>
    (expected.isSome || pattern.isIndexFree env || body.isGround) && body.isConfined env expected &&
      areConfined env branches expected

end

mutual

-- If more is known about the expected type, an expression is confined all the more.
theorem isConfined_mono {env : Env} (e : Expr) {ty ty' : Ty} (h : e.isConfined env (some ty) = true)
    (houtlines : ty.Outlines ty') : e.isConfined env (some ty') = true := by
  cases e with
  | int pos n | float pos x | var pos name | constructor pos name =>
    unfold isConfined
    rfl
  | lam pos b declared body =>
    cases declared with
    | some declared =>
      unfold isConfined at h ⊢
      exact partially_mono h Ty.isPart_codomain? houtlines fun _ _ h houtlines => isConfined_mono body h houtlines
    | none =>
      unfold isConfined at h ⊢
      apply isConfined_mono body h
      rw [Option.bind_some, Option.bind_some]
      cases hb : ty.codomain? with
      | none => exact Ty.outlines_unknown _
      | some b =>
        obtain ⟨b', hb', hbb'⟩ := Ty.isPart_codomain? ty ty' b houtlines hb
        rw [hb']
        exact hbb'
  | app pos f a =>
    unfold isConfined at h ⊢
    rw [Bool.and_eq_true, Bool.and_eq_true] at h ⊢
    exact ⟨⟨isConfined_mono f h.1.1 ⟨_, _, rfl, houtlines⟩, h.1.2⟩, h.2⟩
  | promote pos e =>
    unfold isConfined at h ⊢
    exact partially_mono h Ty.isPart_boxContent? houtlines fun _ _ h houtlines => isConfined_mono e h houtlines
  | lift pos e =>
    unfold isConfined at h ⊢
    exact partially_mono h Ty.isPart_diamondContent? houtlines fun _ _ h houtlines => isConfined_mono e h houtlines
  | binop pos op a b | letDiamond pos b declared value rest | letBox pos b ty value rest =>
    unfold isConfined at h ⊢
    exact h
  | pair pos a b =>
    unfold isConfined at h ⊢
    rw [Bool.and_eq_true] at h ⊢
    constructor
    . exact partially_mono h.1 Ty.isPart_first? houtlines fun _ _ h houtlines => isConfined_mono a h houtlines
    . exact partially_mono h.2 Ty.isPart_second? houtlines fun _ _ h houtlines => isConfined_mono b h houtlines
  | case pos scrutinee branches =>
    unfold isConfined at h ⊢
    rw [Bool.and_eq_true] at h ⊢
    exact ⟨h.1, areConfined_mono branches h.2 houtlines⟩

theorem areConfined_mono {env : Env} (branches : List (Pattern × Expr)) {ty ty' : Ty}
    (h : areConfined env branches (some ty) = true) (houtlines : ty.Outlines ty')
    : areConfined env branches (some ty') = true := by
  cases branches with
  | nil =>
    unfold areConfined
    rfl
  | cons branch branches =>
    obtain ⟨p, body⟩ := branch
    unfold areConfined at h ⊢
    rw [Bool.and_eq_true, Bool.and_eq_true] at h ⊢
    exact ⟨⟨rfl, isConfined_mono body h.1.2 houtlines⟩, areConfined_mono branches h.2 houtlines⟩

end

end Expr
end GradedModal
