import Mathlib
import GradedModal.Proofs.Closure

/-!
This module relates two runs of the checker that use different names. A pairing says which names correspond to each
other, one to one, and what the runs compute corresponds if it is the same up to the names.
-/

namespace GradedModal

/--
A one-to-one correspondence between names.
-/
structure Pairing where
  rel : String → String → Prop
  functional : ∀ {a b b' : String}, rel a b → rel a b' → b = b'
  injective : ∀ {a a' b : String}, rel a b → rel a' b → a = a'

namespace Pairing

instance : LE Pairing where
  le W V := ∀ a b, W.rel a b → V.rel a b

instance : Preorder Pairing where
  le_refl _ _ _ h := h
  le_trans _ _ _ h h' a b hab := h' a b (h a b hab)

variable {W : Pairing} {a a' b b' : String}

theorem eq_iff (h : W.rel a b) (h' : W.rel a' b') : a = a' ↔ b = b' := by
  constructor
  . rintro rfl
    exact W.functional h h'
  . rintro rfl
    exact W.injective h h'

theorem beq_eq (h : W.rel a b) (h' : W.rel a' b') : (a == a') = (b == b') := by
  rw [Bool.eq_iff_iff, beq_iff_eq, beq_iff_eq]
  exact eq_iff h h'

def identity (P : String → Prop) : Pairing where
  rel a b := P a ∧ a = b
  functional h h' := h.2.symm.trans h'.2
  injective h h' := h.2.trans h'.2.symm

def graph (f : String → String) (hf : Function.Injective f) : Pairing where
  rel a b := f a = b
  functional h h' := h.symm.trans h'
  injective h h' := hf (h.trans h'.symm)

def insert (W : Pairing) (a b : String) (ha : ∀ b', ¬W.rel a b') (hb : ∀ a', ¬W.rel a' b) : Pairing where
  rel x y := W.rel x y ∨ (x = a ∧ y = b)
  functional := by
    rintro x y y' (h | ⟨rfl, rfl⟩) (h' | ⟨hx, rfl⟩)
    . exact W.functional h h'
    . exact absurd (hx ▸ h) (ha y)
    . exact absurd h' (ha y')
    . rfl
  injective := by
    rintro x x' y (h | ⟨rfl, rfl⟩) (h' | ⟨rfl, hy⟩)
    . exact W.injective h h'
    . exact absurd (hy ▸ h) (hb x)
    . exact absurd h' (hb x')
    . rfl

abbrev Entries {α β : Type} (W : Pairing) (R : α → β → Prop) (p : String × α) (q : String × β) : Prop :=
  W.rel p.1 q.1 ∧ R p.2 q.2

def Tables {α β : Type} (W : Pairing) (R : α → β → Prop) : List (String × α) → List (String × β) → Prop :=
  List.Forall₂ (W.Entries R)

theorem Tables.lookup {α β : Type} {R : α → β → Prop} {l : List (String × α)} {l' : List (String × β)}
    (h : W.Tables R l l') (hab : W.rel a b) : Option.Rel R (l.lookup a) (l'.lookup b) := by
  induction h with
  | nil => exact .none
  | @cons p q l l' hpq _ ih =>
    obtain ⟨x, r⟩ := p
    obtain ⟨y, r'⟩ := q
    rw [List.lookup_cons, List.lookup_cons, ← beq_eq hab hpq.1]
    cases a == x with
    | true => exact .some hpq.2
    | false => exact ih

theorem Tables.imp {α β : Type} {R S : α → β → Prop} {V : Pairing} {l : List (String × α)} {l' : List (String × β)}
    (h : W.Tables R l l') (hWV : W ≤ V) (hRS : ∀ p q, R p q → S p q) : V.Tables S l l' :=
  List.Forall₂.imp (fun _ _ hpq => ⟨hWV _ _ hpq.1, hRS _ _ hpq.2⟩) h

end Pairing

section

variable {α β γ δ : Type} {R : α → β → Prop} {S : γ → δ → Prop} {o : Option α} {o' : Option β}

theorem rel_getD {a : α} {b : β} (h : Option.Rel R o o') (hab : R a b) : R (o.getD a) (o'.getD b) := by
  cases h with
  | none => exact hab
  | some h => exact h

theorem rel_imp {R' : α → β → Prop} (h : Option.Rel R o o') (hR : ∀ a b, R a b → R' a b) : Option.Rel R' o o' := by
  cases h with
  | none => exact .none
  | some h => exact .some (hR _ _ h)

theorem rel_bind {f : α → Option γ} {g : β → Option δ} (h : Option.Rel R o o')
    (hfg : ∀ a b, R a b → Option.Rel S (f a) (g b)) : Option.Rel S (o.bind f) (o'.bind g) := by
  cases h with
  | none => exact .none
  | some h => exact hfg _ _ h

theorem rel_map {f : α → γ} {g : β → δ} (h : Option.Rel R o o') (hfg : ∀ a b, R a b → S (f a) (g b))
    : Option.Rel S (o.map f) (o'.map g) := by
  cases h with
  | none => exact .none
  | some h => exact .some (hfg _ _ h)

end

inductive GradeKind.Paired (W : Pairing) : GradeKind → GradeKind → Prop where
  | nat : GradeKind.Paired W .nat .nat
  | float : GradeKind.Paired W .float .float
  | level : GradeKind.Paired W .level .level
  | var {a b : String} : W.rel a b → GradeKind.Paired W (.var a) (.var b)

inductive Kind.Paired (W : Pairing) : Kind → Kind → Prop where
  | type : Kind.Paired W .type .type
  | effect : Kind.Paired W .effect .effect
  | grade {k k' : GradeKind} : k.Paired W k' → Kind.Paired W (.grade k) (.grade k')
  | arrow {a a' b b' : Kind} : Kind.Paired W a a' → Kind.Paired W b b' → Kind.Paired W (.arrow a b) (.arrow a' b')

inductive Grade.Paired (W : Pairing) : Grade → Grade → Prop where
  | var {a b : String} : W.rel a b → Grade.Paired W (.var a) (.var b)
  | nat (n : Nat) : Grade.Paired W (.nat n) (.nat n)
  | float (x : Float) : Grade.Paired W (.float x) (.float x)
  | level (l : Level) : Grade.Paired W (.level l) (.level l)
  | zero {k k' : GradeKind} : k.Paired W k' → Grade.Paired W (.zero k) (.zero k')
  | one {k k' : GradeKind} : k.Paired W k' → Grade.Paired W (.one k) (.one k')
  | op {g g' h h' : Grade} (o : Op) :
    Grade.Paired W g g' → Grade.Paired W h h' → Grade.Paired W (.op o g h) (.op o g' h')

inductive Ty.Paired (W : Pairing) : Ty → Ty → Prop where
  | const (n : String) : Ty.Paired W (.const n) (.const n)
  | arrow {a a' b b' : Ty} : Ty.Paired W a a' → Ty.Paired W b b' → Ty.Paired W (.arrow a b) (.arrow a' b')
  | app {a a' b b' : Ty} : Ty.Paired W a a' → Ty.Paired W b b' → Ty.Paired W (.app a b) (.app a' b')
  | var {a b : String} : W.rel a b → Ty.Paired W (.var a) (.var b)
  | box {g g' : Grade} {a a' : Ty} : g.Paired W g' → Ty.Paired W a a' → Ty.Paired W (.box g a) (.box g' a')
  | diamond {a a' : Ty} (effects : List String) : Ty.Paired W a a' → Ty.Paired W (.diamond effects a) (.diamond effects a')
  | pair {a a' b b' : Ty} : Ty.Paired W a a' → Ty.Paired W b b' → Ty.Paired W (.pair a b) (.pair a' b')
  | index (n : Nat) : Ty.Paired W (.index n) (.index n)
  | op {a a' b b' : Ty} (o : Op) : Ty.Paired W a a' → Ty.Paired W b b' → Ty.Paired W (.op o a b) (.op o a' b')

structure Scheme.Paired (W : Pairing) (s s' : Scheme) : Prop where
  vars : W.Tables (Kind.Paired W) s.vars s'.vars
  ty : s.ty.Paired W s'.ty

abbrev Substitution.Paired (W : Pairing) (s s' : Substitution) : Prop :=
  W.Tables (Ty.Paired W) s s'

structure Unified.Paired (W : Pairing) (u u' : Unified) : Prop where
  agree : u.agree = u'.agree
  ty : u.ty.Paired W u'.ty
  subst : Substitution.Paired W u.subst u'.subst

structure Constraint.Paired (W : Pairing) (c c' : Constraint) : Prop where
  pos : c.pos = c'.pos
  relation : c.relation = c'.relation
  left : c.left.Paired W c'.left
  right : c.right.Paired W c'.right
  kind : c.kind.Paired W c'.kind

inductive Predicate.Paired (W : Pairing) : Predicate → Predicate → Prop where
  | atom {c c' : Constraint} : c.Paired W c' → Predicate.Paired W (.atom c) (.atom c')
  | conj {ps qs : List Predicate} : List.Forall₂ (Predicate.Paired W) ps qs → Predicate.Paired W (.conj ps) (.conj qs)
  | impl {bound bound' : List (String × Kind)} {p p' q q' : Predicate} :
    W.Tables (Kind.Paired W) bound bound' → Predicate.Paired W p p' → Predicate.Paired W q q' →
      Predicate.Paired W (.impl bound p q) (.impl bound' p' q')

structure Scope.Paired (W : Pairing) (scope scope' : Scope) : Prop where
  antecedent : List.Forall₂ (Predicate.Paired W) scope.antecedent scope'.antecedent
  consequent : List.Forall₂ (Predicate.Paired W) scope.consequent scope'.consequent
  inConsequent : scope.inConsequent = scope'.inConsequent

structure TypeVar.Paired (W : Pairing) (v v' : TypeVar) : Prop where
  name : W.rel v.name v'.name
  kind : v.kind.Paired W v'.kind
  quantifier : v.quantifier = v'.quantifier

section

variable {W V : Pairing}

namespace GradeKind.Paired

variable {k k' l l' : GradeKind}

theorem mono (h : k.Paired W k') (hWV : W ≤ V) : k.Paired V k' := by
  cases h with
  | nat => exact .nat
  | float => exact .float
  | level => exact .level
  | var h => exact .var (hWV _ _ h)

theorem eq_iff (h : k.Paired W k') (hl : l.Paired W l') : k = l ↔ k' = l' := by
  cases h with
  | var h =>
    cases hl with
    | var hl => simp [W.eq_iff h hl]
    | _ => simp
  | _ => cases hl <;> simp

end GradeKind.Paired

namespace Kind.Paired

variable {k k' l l' : Kind}

theorem mono (h : k.Paired W k') (hWV : W ≤ V) : k.Paired V k' := by
  induction h with
  | type => exact .type
  | effect => exact .effect
  | grade h => exact .grade (h.mono hWV)
  | arrow _ _ iha ihb => exact .arrow iha ihb

theorem eq_iff (h : k.Paired W k') (hl : l.Paired W l') : k = l ↔ k' = l' := by
  induction h generalizing l l' with
  | type | effect => cases hl <;> simp
  | grade h =>
    cases hl with
    | grade hl => simp [h.eq_iff hl]
    | _ => simp
  | arrow _ _ iha ihb =>
    cases hl with
    | arrow ha hb => simp [iha ha, ihb hb]
    | _ => simp

theorem gradeKind? (h : k.Paired W k') : Option.Rel (GradeKind.Paired W) k.gradeKind? k'.gradeKind? := by
  cases h with
  | grade h => exact .some h
  | _ => exact .none

end Kind.Paired

namespace Grade.Paired

variable {g g' h h' : Grade}

theorem mono (hg : g.Paired W g') (hWV : W ≤ V) : g.Paired V g' := by
  induction hg with
  | var h => exact .var (hWV _ _ h)
  | nat n => exact .nat n
  | float x => exact .float x
  | level l => exact .level l
  | zero h => exact .zero (h.mono hWV)
  | one h => exact .one (h.mono hWV)
  | op o _ _ ihg ihh => exact .op o ihg ihh

theorem isZero (hg : g.Paired W g') : g.isZero = g'.isZero := by
  cases hg <;> rfl

-- Literals are compared as they are, and a literal that is not a number differs from itself.
theorem beq_eq (hg : g.Paired W g') (hh : h.Paired W h') : (g == h) = (g' == h') := by
  induction hg generalizing h h' with
  | var hg =>
    cases hh with
    | var hh => exact W.beq_eq hg hh
    | _ => rfl
  | zero hg =>
    cases hh with
    | zero hh => exact decide_eq_decide.mpr (hg.eq_iff hh)
    | _ => rfl
  | one hg =>
    cases hh with
    | one hh => exact decide_eq_decide.mpr (hg.eq_iff hh)
    | _ => rfl
  | op o _ _ iha ihb =>
    cases hh with
    | op o' ha hb => exact congrArg₂ and rfl (congrArg₂ and (iha ha) (ihb hb))
    | _ => rfl
  | _ => cases hh <;> rfl

end Grade.Paired

namespace Ty.Paired

variable {a a' b b' : Ty}

theorem mono (h : a.Paired W a') (hWV : W ≤ V) : a.Paired V a' := by
  induction h with
  | const n => exact .const n
  | arrow _ _ iha ihb => exact .arrow iha ihb
  | app _ _ iha ihb => exact .app iha ihb
  | var h => exact .var (hWV _ _ h)
  | box hg _ ih => exact .box (hg.mono hWV) ih
  | diamond effects _ ih => exact .diamond effects ih
  | pair _ _ iha ihb => exact .pair iha ihb
  | index n => exact .index n
  | op o _ _ iha ihb => exact .op o iha ihb

theorem beq_eq (ha : a.Paired W a') (hb : b.Paired W b') : (a == b) = (a' == b') := by
  induction ha generalizing b b' with
  | arrow _ _ ihx ihy =>
    cases hb with
    | arrow hx hy => exact congrArg₂ and (ihx hx) (ihy hy)
    | _ => rfl
  | app _ _ ihx ihy =>
    cases hb with
    | app hx hy => exact congrArg₂ and (ihx hx) (ihy hy)
    | _ => rfl
  | var hx =>
    cases hb with
    | var hy => exact W.beq_eq hx hy
    | _ => rfl
  | box hg _ ih =>
    cases hb with
    | box hh hy => exact congrArg₂ and (hg.beq_eq hh) (ih hy)
    | _ => rfl
  | diamond effects _ ih =>
    cases hb with
    | diamond effects' hy => exact congrArg₂ and rfl (ih hy)
    | _ => rfl
  | pair _ _ ihx ihy =>
    cases hb with
    | pair hx hy => exact congrArg₂ and (ihx hx) (ihy hy)
    | _ => rfl
  | op o _ _ ihx ihy =>
    cases hb with
    | op o' hx hy => exact congrArg₂ and rfl (congrArg₂ and (ihx hx) (ihy hy))
    | _ => rfl
  | _ => cases hb <;> rfl

theorem args (h : a.Paired W a') : List.Forall₂ (Ty.Paired W) a.args a'.args := by
  induction h with
  | arrow ha _ _ ihb => exact .cons ha ihb
  | _ => exact .nil

theorem result (h : a.Paired W a') : a.result.Paired W a'.result := by
  induction h with
  | arrow _ _ _ ihb => exact ihb
  | const n => exact .const n
  | app ha hb => exact .app ha hb
  | var h => exact .var h
  | box hg ha => exact .box hg ha
  | diamond effects ha => exact .diamond effects ha
  | pair ha hb => exact .pair ha hb
  | index n => exact .index n
  | op o ha hb => exact .op o ha hb

theorem toGrade? (h : a.Paired W a') : Option.Rel (Grade.Paired W) a.toGrade? a'.toGrade? := by
  induction h with
  | var h => exact .some (.var h)
  | index n => exact .some (.nat n)
  | op o _ _ iha ihb => exact rel_bind iha fun _ _ ha => rel_bind ihb fun _ _ hb => .some (.op o ha hb)
  | _ => exact .none

end Ty.Paired

theorem Grade.Paired.substitute {g g' : Grade} {s s' : Substitution} (h : g.Paired W g')
    (hs : Substitution.Paired W s s') : (g.substitute s).Paired W (g'.substitute s') := by
  induction h with
  | var h => exact rel_getD (rel_bind (hs.lookup h) fun _ _ hty => hty.toGrade?) (.var h)
  | nat n => exact .nat n
  | float x => exact .float x
  | level l => exact .level l
  | zero h => exact .zero h
  | one h => exact .one h
  | op o _ _ iha ihb => exact .op o iha ihb

theorem Ty.Paired.substitute {ty ty' : Ty} {s s' : Substitution} (h : ty.Paired W ty')
    (hs : Substitution.Paired W s s') : (ty.substitute s).Paired W (ty'.substitute s') := by
  induction h with
  | const n => exact .const n
  | arrow _ _ iha ihb => exact .arrow iha ihb
  | app _ _ iha ihb => exact .app iha ihb
  | var h => exact rel_getD (hs.lookup h) (.var h)
  | box hg _ ih => exact .box (hg.substitute hs) ih
  | diamond effects _ ih => exact .diamond effects ih
  | pair _ _ iha ihb => exact .pair iha ihb
  | index n => exact .index n
  | op o _ _ iha ihb => exact .op o iha ihb

theorem Substitution.Paired.mono {s s' : Substitution} (h : Substitution.Paired W s s') (hWV : W ≤ V)
    : Substitution.Paired V s s' :=
  h.imp hWV fun _ _ h => h.mono hWV

theorem Scheme.Paired.mono {s s' : Scheme} (h : s.Paired W s') (hWV : W ≤ V) : s.Paired V s' where
  vars := h.vars.imp hWV fun _ _ h => h.mono hWV
  ty := h.ty.mono hWV

theorem Constraint.Paired.mono {c c' : Constraint} (h : c.Paired W c') (hWV : W ≤ V) : c.Paired V c' where
  pos := h.pos
  relation := h.relation
  left := h.left.mono hWV
  right := h.right.mono hWV
  kind := h.kind.mono hWV

theorem TypeVar.Paired.mono {v v' : TypeVar} (h : v.Paired W v') (hWV : W ≤ V) : v.Paired V v' where
  name := hWV _ _ h.name
  kind := h.kind.mono hWV
  quantifier := h.quantifier

theorem Predicate.Paired.mono {p p' : Predicate} (h : p.Paired W p') (hWV : W ≤ V) : p.Paired V p' := by
  induction p using Predicate.induction generalizing p' with
  | atom c =>
    cases h with
    | atom h => exact .atom (h.mono hWV)
  | conj items ih =>
    cases h with
    | @conj _ qs h =>
      apply Predicate.Paired.conj
      induction h with
      | nil => exact .nil
      | cons hp _ ihs =>
        exact .cons (ih _ List.mem_cons_self hp) (ihs fun p hp => ih p (List.mem_cons_of_mem _ hp))
  | impl bound p q ihp ihq =>
    cases h with
    | impl hbound hp hq => exact .impl (hbound.imp hWV fun _ _ h => h.mono hWV) (ihp hp) (ihq hq)

theorem Scope.Paired.mono {scope scope' : Scope} (h : scope.Paired W scope') (hWV : W ≤ V) : scope.Paired V scope' where
  antecedent := h.antecedent.imp fun _ _ h => h.mono hWV
  consequent := h.consequent.imp fun _ _ h => h.mono hWV
  inConsequent := h.inConsequent

theorem Unified.Paired.mono {u u' : Unified} (h : u.Paired W u') (hWV : W ≤ V) : u.Paired V u' where
  agree := h.agree
  ty := h.ty.mono hWV
  subst := Substitution.Paired.mono h.subst hWV

end

end GradedModal
