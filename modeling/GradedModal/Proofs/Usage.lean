import Mathlib
import GradedModal.Proofs.Existentials
import GradedModal.Proofs.Remainder
import GradedModal.Proofs.Unification

/-!
This module says that what checking returns about a context is faithful to it. Each variable that was used is free in
the expression and has the type that it is bound with, a graded variable stays graded, and a graded variable that is
free in the expression is never lost. So uses that are combined agree on the types of variables.
-/

namespace GradedModal

open CheckM

namespace Context

variable {pos : Nat} {c left right used u : Context} {x : String} {a : Assumption} {s s' : State}
  {P : String → Assumption → Prop}

theorem addUses_eq_ok {known sum : Assumption} (h : addUses pos x known a s = .ok sum s')
    : sum.isLinear = false ∧ (sum.ty = known.ty ∨ sum.ty = a.ty) := by
  cases known with
  | linear ty =>
    cases a with
    | linear ty' => cases h
    | graded ty' grade =>
      unfold addUses at h
      simp only [bind_eq_ok, pure_eq_ok] at h
      obtain ⟨_, _, _, rfl, rfl⟩ := h
      exact ⟨rfl, .inr rfl⟩
  | graded ty grade =>
    cases a with
    | linear ty' =>
      unfold addUses at h
      simp only [bind_eq_ok, pure_eq_ok] at h
      obtain ⟨_, _, _, rfl, rfl⟩ := h
      exact ⟨rfl, .inl rfl⟩
    | graded ty' grade' =>
      cases h
      exact ⟨rfl, .inl rfl⟩

def IsAdditive (P : String → Assumption → Prop) : Prop :=
  ∀ ⦃x known a sum⦄, P x known → P x a → sum.isLinear = false → (sum.ty = known.ty ∨ sum.ty = a.ty) → P x sum

theorem IsAdditive.extend (hP : IsAdditive P) (hused : ∀ b ∈ used.bindings, P b.1 b.2) (ha : P x a)
    (h : used.extend pos x a s = .ok u s') : ∀ b ∈ u.bindings, P b.1 b.2 := by
  obtain ⟨_, rfl⟩ | ⟨known, sum, _, hknown, hsum, rfl⟩ := extend_eq_ok h
  . intro b hmem
    obtain hmem | hmem := List.mem_append.mp hmem
    . exact hused b hmem
    . cases List.mem_singleton.mp hmem
      exact ha
  . intro b hmem
    obtain ⟨b', hb', rfl⟩ := List.mem_map.mp hmem
    dsimp only
    split
    . next hx =>
      obtain ⟨hlinear, hty⟩ := addUses_eq_ok hsum
      rw [hx]
      exact hP (hused _ (mem_of_lookup hknown)) ha hlinear hty
    . exact hused b' hb'

theorem IsAdditive.combine (hP : IsAdditive P) (hleft : ∀ b ∈ left.bindings, P b.1 b.2)
    (hright : ∀ b ∈ right.bindings, P b.1 b.2) (h : Context.combine pos left right s = .ok u s')
    : ∀ b ∈ u.bindings, P b.1 b.2 := by
  obtain ⟨bindings⟩ := left
  unfold Context.combine at h
  dsimp only at h hleft
  induction bindings generalizing right s with
  | nil =>
    rw [List.foldlM_nil, pure_eq_ok] at h
    rw [← h.1]
    exact hright
  | cons b bindings ih =>
    rw [List.foldlM_cons, bind_eq_ok] at h
    obtain ⟨c', s₁, hextend, h⟩ := h
    rw [List.forall_mem_cons] at hleft
    exact ih (hP.extend hright hleft.1 hextend) hleft.2 h

/--
A use that fits the context: the variable is bound with the same type, and the use is graded if the variable is.
-/
def Fits (c : Context) (x : String) (a : Assumption) : Prop :=
  ∃ b, c.lookup? x = some b ∧ a.ty = b.ty ∧ (b.isLinear = false → a.isLinear = false)

theorem Fits.ty_eq {b : Assumption} (ha : c.Fits x a) (hb : c.Fits x b) : a.ty = b.ty := by
  obtain ⟨_, hx, hty, _⟩ := ha
  obtain ⟨_, hx', hty', _⟩ := hb
  cases hx.symm.trans hx'
  rw [hty, hty']

theorem Fits.scale (h : c.Fits x a) (grade : Grade) : c.Fits x (a.scale grade) := by
  obtain ⟨b, hx, hty, _⟩ := h
  refine ⟨b, hx, ?_, fun _ => ?_⟩
  . rw [← hty]
    cases a <;> rfl
  . cases a <;> rfl

theorem isAdditive_fits : IsAdditive c.Fits := by
  intro x known a sum hknown ha hlinear hty
  have hsame := hknown.ty_eq ha
  obtain ⟨b, hx, hb, _⟩ := hknown
  refine ⟨b, hx, ?_, fun _ => hlinear⟩
  obtain hty | hty := hty
  . rw [hty, hb]
  . rw [hty, ← hsame, hb]

theorem joinsTo_of_mem (h : left.join pos right s = .ok u s') (hmem : (x, a) ∈ u.bindings)
    : JoinsTo (left.lookup? x) (right.lookup? x) (some a) := by
  unfold join at h
  rw [bind_eq_ok] at h
  obtain ⟨bindings, s₁, hbindings, h⟩ := h
  rw [pure_eq_ok] at h
  obtain ⟨rfl, rfl⟩ := h
  obtain ⟨_, ho, rfl⟩ := List.mem_filterMap.mp hmem
  obtain ⟨y, _, _, _, hrun⟩ := exists_of_mem_mapM hbindings _ ho
  simp only [bind_eq_ok, pure_eq_ok] at hrun
  obtain ⟨o, _, hjoin, heq, _⟩ := hrun
  obtain ⟨_, rfl, heq⟩ := Option.map_eq_some_iff.mp heq
  cases heq
  exact joinsTo_joinVar hjoin

def AllFit (used c : Context) : Prop :=
  ∀ b ∈ used.bindings, c.Fits b.1 b.2

namespace AllFit

theorem lookup? (h : used.AllFit c) (hx : used.lookup? x = some a) : c.Fits x a :=
  h _ (mem_of_lookup hx)

theorem empty : Context.empty.AllFit c :=
  List.forall_mem_nil _

theorem of_lookup? (hused : used.names.Nodup) (h : ∀ x a, used.lookup? x = some a → c.Fits x a) : used.AllFit c :=
  fun b hmem => h b.1 b.2 (lookup?_of_mem hused hmem)

theorem combine (hleft : left.AllFit c) (hright : right.AllFit c) (h : Context.combine pos left right s = .ok u s')
    : u.AllFit c :=
  isAdditive_fits.combine hleft hright h

theorem scale (h : used.AllFit c) (vars : List String) (grade : Grade) : (used.scale vars grade).AllFit c := by
  intro b hmem
  obtain ⟨b', hb', rfl⟩ := List.mem_map.mp hmem
  exact (h b' (List.mem_filter.mp hb').1).scale grade

theorem join (hleft : left.AllFit c) (hright : right.AllFit c) (h : left.join pos right s = .ok u s')
    : u.AllFit c := by
  rintro ⟨x, a⟩ hmem
  have hjoins := joinsTo_of_mem h hmem
  generalize hl : left.lookup? x = l at hjoins
  generalize hr : right.lookup? x = r at hjoins
  cases hjoins with
  | linear ty ty' => exact hleft.lookup? hl
  | gradedLeft ty g v | graded ty ty' g h v =>
    obtain ⟨b, hb, hty, _⟩ := hleft.lookup? hl
    exact ⟨b, hb, hty, fun _ => rfl⟩
  | gradedRight ty g v =>
    obtain ⟨b, hb, hty, _⟩ := hright.lookup? hr
    exact ⟨b, hb, hty, fun _ => rfl⟩

end AllFit

structure IsFaithful (used c : Context) (vars : List String) : Prop where
  fits : used.AllFit c
  kept : ∀ x ty g, c.lookup? x = some (.graded ty g) → x ∈ vars → x ∈ used.names

namespace IsFaithful

variable {vars vars' : List String}

theorem empty : Context.empty.IsFaithful c [] where
  fits := .empty
  kept _ _ _ _ hx := absurd hx List.not_mem_nil

theorem combine (hleft : left.IsFaithful c vars) (hright : right.IsFaithful c vars')
    (h : Context.combine pos left right s = .ok used s') : used.IsFaithful c (vars ++ vars') where
  fits := hleft.fits.combine hright.fits h
  kept x ty g hx hmem := (mem_names_combine h).mpr ((List.mem_append.mp hmem).imp (hleft.kept x ty g hx)
    (hright.kept x ty g hx))

-- Outside of its scope a variable is whatever the context says about its name.
theorem remove (h : used.IsFaithful (c.bind x a) vars) : (used.remove x).IsFaithful c (vars.filter (· != x)) where
  fits b hmem := by
    obtain ⟨hmem, hne⟩ := List.mem_filter.mp hmem
    rw [bne_iff_ne] at hne
    obtain ⟨b', hb', hfits⟩ := h.fits b hmem
    rw [lookup?_bind, if_neg hne] at hb'
    exact ⟨b', hb', hfits⟩
  kept y ty g hy hmem := by
    obtain ⟨hmem, hne⟩ := List.mem_filter.mp hmem
    rw [bne_iff_ne] at hne
    rw [← isSome_lookup?_iff, lookup?_remove, if_neg hne, isSome_lookup?_iff]
    apply h.kept y ty g _ hmem
    rw [lookup?_bind, if_neg hne]
    exact hy

theorem scale (h : used.IsFaithful c vars) (hvars : ∀ x ∈ vars, x ∈ vars') (grade : Grade)
    : (used.scale vars' grade).IsFaithful c vars where
  fits := h.fits.scale vars' grade
  kept x ty g hx hmem := by
    have hused := h.kept x ty g hx hmem
    rw [← isSome_lookup?_iff] at hused ⊢
    rw [lookup?_scale, if_pos (hvars x hmem), Option.isSome_map]
    exact hused

end IsFaithful
end Context

/--
An error about something else than two types that differ.
-/
def Error.NotMismatch (e : Error) : Prop :=
  ∀ expected actual, e.cause ≠ .typeMismatch expected actual

theorem Error.IsKinding.notMismatch {e : Error} (h : e.IsKinding) : e.NotMismatch := by
  intro expected actual hcause
  unfold IsKinding at h
  rw [hcause] at h
  cases h

namespace Context

variable {pos : Nat} {c left right used : Context} {x : String} {a : Assumption} {s s' : State} {e : Error}

theorem addUses_notMismatch {b : Assumption} (h : addUses pos x a b s = .error e s') : e.NotMismatch := by
  have hsum : ∀ {ty : Ty} {g : Grade},
      (do return .graded ty (.op .plus g (.one (← g.inferKind pos))) : CheckM Assumption) s = .error e s' →
        e.NotMismatch := by
    intro ty g h
    cases hkind : g.inferKind pos s with
    | ok kind s₁ =>
      rw [bind_of_ok hkind] at h
      cases h
    | error e' s₁ =>
      rw [bind_of_error hkind] at h
      cases h
      exact ((Grade.inferKind_isKinding pos g rfl).2 _ _ hkind).notMismatch
  cases a with
  | linear ty =>
    cases b with
    | linear ty' =>
      cases h
      rintro _ _ ⟨⟩
    | graded ty' g => exact hsum h
  | graded ty g =>
    cases b with
    | linear ty' => exact hsum h
    | graded ty' g' => cases h

theorem extend_notMismatch (htypes : ∀ x b, c.lookup? x = some b → (b.ty == b.ty) = true) (hused : used.AllFit c)
    (ha : c.Fits x a) (h : used.extend pos x a s = .error e s') : e.NotMismatch := by
  unfold extend at h
  cases hknown : used.lookup? x with
  | none =>
    rw [hknown] at h
    cases h
  | some known =>
    have hty : (known.ty != a.ty) = false := by
      obtain ⟨b, hx, hb, _⟩ := hused.lookup? hknown
      rw [← (hused.lookup? hknown).ty_eq ha, hb]
      unfold bne
      rw [htypes x b hx, Bool.not_true]
    rw [hknown] at h
    simp only [hty, Bool.false_eq_true, if_false] at h
    cases hsum : addUses pos x known a s with
    | ok sum s₁ =>
      rw [bind_of_ok hsum] at h
      cases h
    | error e' s₁ =>
      rw [bind_of_error hsum] at h
      cases h
      exact addUses_notMismatch hsum

theorem combine_notMismatch (htypes : ∀ x b, c.lookup? x = some b → (b.ty == b.ty) = true) (hleft : left.AllFit c)
    (hright : right.AllFit c) (h : combine pos left right s = .error e s') : e.NotMismatch := by
  obtain ⟨bindings⟩ := left
  unfold combine at h
  unfold AllFit at hleft
  dsimp only at h hleft
  induction bindings generalizing right s with
  | nil => cases h
  | cons b bindings ih =>
    rw [List.foldlM_cons] at h
    rw [List.forall_mem_cons] at hleft
    cases hextend : right.extend pos b.1 b.2 s with
    | ok c' s₁ =>
      rw [bind_of_ok hextend] at h
      exact ih (isAdditive_fits.extend hright hleft.1 hextend) hleft.2 h
    | error e' s₁ =>
      rw [bind_of_error hextend] at h
      cases h
      exact extend_notMismatch htypes hright hleft.1 hextend

theorem combine_mismatch {b : Assumption} (h : (b.ty == a.ty) = false) (pos : Nat) (s : State)
    : combine pos ⟨[(x, a)]⟩ ⟨[(x, b)]⟩ s = .error (.ofCause pos (.typeMismatch b.ty a.ty)) s := by
  have hne : (b.ty != a.ty) = true := by rw [bne, h]; rfl
  have hlookup : (⟨[(x, b)]⟩ : Context).lookup? x = some b := List.lookup_cons_self
  change (extend pos ⟨[(x, b)]⟩ x a >>= pure) s = _
  rw [extend, hlookup]
  dsimp only
  rw [if_pos hne]
  rfl

end Context

open Context

namespace Expr

variable {env : Env} {c used : Context} {polarity : Polarity} {goal : Goal} {pos : Nat} {x : String} {s s' : State}
  {r : Typed}

theorem varTy_isFaithful {name : String} {ty : Ty} (h : varTy env c pos name s = .ok (ty, used) s')
    : used.IsFaithful c [name] := by
  have hsingleton : ∀ a, c.Fits name a → (Context.singleton name a).IsFaithful c [name] := by
    intro a ha
    constructor
    . intro b hmem
      cases List.mem_singleton.mp hmem
      exact ha
    . intro x _ _ _ hx
      exact hx
  obtain ⟨hx, rfl⟩ | ⟨_, _, hx, rfl⟩ | ⟨_, hx, _, _, rfl⟩ := varTy_eq_ok h
  . exact hsingleton _ ⟨_, hx, rfl, id⟩
  . exact hsingleton _ ⟨_, hx, rfl, fun _ => rfl⟩
  . refine ⟨.empty, fun x _ _ hx' hmem => ?_⟩
    rw [List.mem_singleton.mp hmem, hx] at hx'
    cases hx'

theorem promote_isFaithful {e : Expr} {fresh : Context} {demand : Grade} (hc : c.names.Nodup)
    (h : freshen pos (e.freeVars.filter c.contains) c demand s = .ok fresh s')
    : (fresh.scale (e.freeVars.filter c.contains) demand).IsFaithful c e.freeOccurrences := by
  have hmem : ∀ x ty g, c.lookup? x = some (.graded ty g) → x ∈ e.freeOccurrences →
      x ∈ e.freeVars.filter c.contains := by
    intro x ty g hx hmem
    refine List.mem_filter.mpr ⟨List.mem_eraseDups.mpr hmem, ?_⟩
    unfold contains
    rw [hx]
    rfl
  have hnodup : fresh.names.Nodup := by
    rw [names_freshen h]
    exact nodup_names_filter hc _
  have hfits : fresh.AllFit c := by
    refine .of_lookup? hnodup fun x a ha => ?_
    have hfreshens := lookup?_freshen h x
    rw [ha] at hfreshens
    split at hfreshens
    . generalize hx : c.lookup? x = o at hfreshens
      cases hfreshens with
      | linear ty kind | graded ty g v => exact ⟨_, hx, rfl, fun _ => rfl⟩
    . cases hfreshens
  constructor
  . exact hfits.scale _ demand
  . intro x ty g hx hfree
    have hfreshens := lookup?_freshen h x
    rw [if_pos (hmem x ty g hx hfree), hx] at hfreshens
    rw [← isSome_lookup?_iff, lookup?_scale, if_pos (hmem x ty g hx hfree), Option.isSome_map]
    generalize fresh.lookup? x = o at hfreshens
    cases hfreshens
    rfl

theorem baseline_fits {branches : List (Pattern × Expr)} {base : Context} (hc : c.names.Nodup)
    (h : baseline pos c branches s = .ok base s') : base.AllFit c := by
  refine .of_lookup? (nodup_names_baseline h) fun x a ha => ?_
  obtain ⟨ty, g, v, hx, rfl⟩ := eq_graded_of_baseline hc h ha
  exact ⟨_, hx, rfl, fun _ => rfl⟩

-- What is left of a branch is bound outside of it.
theorem closeBranch_fits {info : CaseInfo} {p : Pattern} {bodyPos : Nat} {matched : Matched} {net : Context}
    (hmatched : matched.context.names.Nodup) (hused : used.AllFit (info.context.bindAll matched.context))
    (h : closeBranch info p bodyPos matched used s = .ok net s') : net.AllFit info.context := by
  intro b hmem
  obtain ⟨_, _, hx⟩ := mem_net h (List.mem_map_of_mem hmem)
  obtain ⟨_, rfl, _⟩ := closeBranch_eq_ok.mp h
  have hmem := (List.mem_filter.mp (List.mem_filter.mp hmem).1).1
  obtain ⟨b', hb', hfits⟩ := hused b hmem
  rw [lookup?_bindAll hmatched, hx, Option.none_or] at hb'
  exact ⟨b', hb', hfits⟩

def JoinedFit (c : Context) (used : Option Context) : Prop :=
  ∀ u, used = some u → u.AllFit c

theorem JoinedFit.getD {used : Option Context} (h : JoinedFit c used) : (used.getD .empty).AllFit c := by
  cases used with
  | none => exact .empty
  | some u => exact h u rfl

theorem branchUsed_fits {info : CaseInfo} {previous : Option Context} {net : Context}
    (hprevious : JoinedFit c previous) (hnet : net.AllFit c) (h : branchUsed info previous net s = .ok used s')
    : used.AllFit c := by
  unfold branchUsed at h
  split at h
  . rw [pure_eq_ok] at h
    rw [← h.1]
    exact hnet
  . exact (hprevious _ rfl).join hnet h

theorem useClosed_isFaithful (env : Env)
    : UseClosed env (fun c vars used => used.IsFaithful c vars) (fun c _ used => JoinedFit c used) where
  empty := .empty
  var := varTy_isFaithful
  remove := IsFaithful.remove
  combine := IsFaithful.combine
  scaling hfactor ha := by
    refine ⟨ha.fits, fun x ty g hx hmem => ?_⟩
    -- The only variable of the function is not in the context.
    obtain ⟨hscale, _, _, _, rfl⟩ := scaleFactor?_eq_some hfactor
    obtain hmem | hmem := List.mem_append.mp hmem
    . obtain hmem | hmem := List.mem_append.mp hmem
      . rw [List.mem_singleton.mp hmem, hscale] at hx
        cases hx
      . cases hmem
    . exact ha.kept x ty g hx hmem
  promoteChecked := promote_isFaithful
  promote grade he := he.scale (fun x hx => List.mem_eraseDups.mpr hx) grade
  case hc hbase hvalue hjoined hused htotal := by
    refine ⟨(hjoined.getD.combine hvalue.fits hused).combine (baseline_fits hc hbase) htotal, ?_⟩
    intro x ty g hx hmem
    rw [mem_names_combine htotal, mem_names_combine hused]
    obtain hmem | hmem := List.mem_append.mp hmem
    . exact .inl (.inr (hvalue.kept x ty g hx hmem))
    . exact .inr (isSome_lookup?_iff.mp (isSome_lookup?_baseline hbase hx (List.mem_eraseDups.mpr hmem)))
  start := by rintro _ _ ⟨⟩
  branch hmatch hbody hclose hused hjoined := by
    have hnet := closeBranch_fits (Pattern.matchTy_binds hmatch).nodup hbody.fits hclose
    rintro _ ⟨⟩
    exact branchUsed_fits hjoined hnet hused

theorem infer_isFaithful (env : Env) (e : Expr) {c : Context} {polarity : Polarity} {goal : Goal} {r : Typed}
    {s s' : State} (h : infer env e c polarity goal s = .ok r s') (hc : c.names.Nodup)
    : r.used.IsFaithful c e.freeOccurrences :=
  (useClosed_isFaithful env).infer e h hc

theorem inferBranches_fits (env : Env) (branches : List (Pattern × Expr)) {info : CaseInfo} {result : Joined}
    {s s' : State} (h : inferBranches env info branches ⟨none, none⟩ s = .ok result s')
    (hc : info.context.names.Nodup) : JoinedFit info.context result.used :=
  (useClosed_isFaithful env).inferBranches branches [] h hc (useClosed_isFaithful env).start

/--
Answering a goal about an expression in one state adds up what two of its parts used, in another state. There is one
rule for each place where this is done; what came before has succeeded.
-/
inductive Combines (env : Env) (c : Context) (polarity : Polarity) :
    Goal → Expr → State → Nat → Context → Context → State → Prop where
  | checkedApp {pos : Nat} {f a : Expr} {topLevel : Bool} {expected : Ty} {arg function : Typed} {s s₁ s₂ : State}
    (hscale : (if expected == .const "Float" then scaleFactor? c f else none) = none)
    (ha : infer env a c polarity .synthesize s = .ok arg s₁)
    (hf : infer env f c polarity.flip (.check false (.arrow arg.ty expected)) s₁ = .ok function s₂) :
    Combines env c polarity (.check topLevel expected) (.app pos f a) s f.pos function.used arg.used s₂
  | app {pos : Nat} {f a : Expr} {argTy resultTy : Ty} {function arg : Typed} {s s₁ s₂ : State}
    (hf : infer env f c polarity .synthesize s = .ok function s₁) (hty : function.ty = .arrow argTy resultTy)
    (ha : infer env a c polarity (.check false argTy) s₁ = .ok arg s₂) :
    Combines env c polarity .synthesize (.app pos f a) s pos function.used arg.used s₂
  | checkedPair {pos : Nat} {a b : Expr} {topLevel : Bool} {aTy bTy : Ty} {left right : Typed} {s s₁ s₂ : State}
    (ha : infer env a c polarity (.check false aTy) s = .ok left s₁)
    (hb : infer env b c polarity (.check false (bTy.substitute left.subst)) s₁ = .ok right s₂) :
    Combines env c polarity (.check topLevel (.pair aTy bTy)) (.pair pos a b) s pos left.used right.used s₂
  | pair {goal : Goal} {pos : Nat} {a b : Expr} {left right : Typed} {s s₁ s₂ : State}
    (hgoal : ∀ topLevel aTy bTy, goal ≠ .check topLevel (.pair aTy bTy))
    (ha : infer env a c polarity .synthesize s = .ok left s₁)
    (hb : infer env b c polarity .synthesize s₁ = .ok right s₂) :
    Combines env c polarity goal (.pair pos a b) s pos left.used right.used s₂
  | branches {goal : Goal} {pos : Nat} {scrutinee : Expr} {branches : List (Pattern × Expr)} {value : Typed}
    {base : Context} {joined : Joined} {s s₁ s₂ s₃ : State}
    (hvalue : infer env scrutinee c polarity .synthesize s = .ok value s₁)
    (hbase : baseline pos c branches s₁ = .ok base s₂)
    (hbranches : inferBranches env ⟨pos, c, polarity, value.ty, base, goal.expected?⟩ branches ⟨none, none⟩ s₂
      = .ok joined s₃) :
    Combines env c polarity goal (.case pos scrutinee branches) s pos (joined.used.getD .empty) value.used s₃
  | baseline {goal : Goal} {pos : Nat} {scrutinee : Expr} {branches : List (Pattern × Expr)} {value : Typed}
    {base used : Context} {joined : Joined} {s s₁ s₂ s₃ s₄ : State}
    (hvalue : infer env scrutinee c polarity .synthesize s = .ok value s₁)
    (hbase : baseline pos c branches s₁ = .ok base s₂)
    (hbranches : inferBranches env ⟨pos, c, polarity, value.ty, base, goal.expected?⟩ branches ⟨none, none⟩ s₂
      = .ok joined s₃)
    (hused : combine pos (joined.used.getD .empty) value.used s₃ = .ok used s₄) :
    Combines env c polarity goal (.case pos scrutinee branches) s pos used base s₄
  | letDiamond {goal : Goal} {pos : Nat} {b : Binder} {declared : Option Ty} {value rest : Expr}
    {effects effects' : List String} {content result : Ty} {first second : Typed} {s s₁ s₂ s₃ : State}
    (hvalue : infer env value c polarity .synthesize s = .ok first s₁) (hty : first.ty = .diamond effects content)
    (hdeclared : checkDeclared env b.pos content declared s₁ = .ok () s₂)
    (hrest : infer env rest (c.bind b.name (.linear content)) polarity .synthesize s₂ = .ok second s₃)
    (hty' : second.ty = .diamond effects' result) :
    Combines env c polarity goal (.letDiamond pos b declared value rest) s pos first.used
      (second.used.remove b.name) s₃
  | letBox {goal : Goal} {pos : Nat} {b : Binder} {ty : Ty} {value rest : Expr} {kind : GradeKind}
    {grade demand : Grade} {first second : Typed} {s s₁ s₂ s₃ s₄ s₅ : State}
    (hkind : freshGradeKind "k" s = .ok kind s₁) (hgrade : freshGrade b.name kind s₁ = .ok grade s₂)
    (hrest : infer env rest (c.bind b.name (.graded ty grade)) polarity .synthesize s₂ = .ok second s₃)
    (hdemand : boxDemand b.pos kind grade (second.used.lookup? b.name) s₃ = .ok demand s₄)
    (hvalue : infer env value c polarity (.check false (.box demand ty)) s₄ = .ok first s₅) :
    Combines env c polarity goal (.letBox pos b ty value rest) s pos first.used (second.used.remove b.name) s₅
  | binop {goal : Goal} {pos : Nat} {op : BinOp} {a b : Expr} {sig left right : Ty} {first second : Typed}
    {s s₁ s₂ : State} (hsig : sig ∈ env.builtins.signatures op) (hargs : sig.args = [left, right])
    (ha : infer env a c polarity (.check false left) s = .ok first s₁)
    (hb : infer env b c polarity (.check false right) s₁ = .ok second s₂) :
    Combines env c polarity goal (.binop pos op a b) s pos first.used second.used s₂

theorem Combines.fit {e : Expr} {t : State} {left right : Context} (hc : c.names.Nodup)
    (h : Combines env c polarity goal e s pos left right t) : left.AllFit c ∧ right.AllFit c := by
  cases h with
  | checkedApp _ ha hf | app hf _ ha => exact ⟨(infer_isFaithful env _ hf hc).fits, (infer_isFaithful env _ ha hc).fits⟩
  | checkedPair ha hb | pair _ ha hb | binop _ _ ha hb =>
    exact ⟨(infer_isFaithful env _ ha hc).fits, (infer_isFaithful env _ hb hc).fits⟩
  | branches hvalue _ hbranches =>
    exact ⟨(inferBranches_fits env _ hbranches hc).getD, (infer_isFaithful env _ hvalue hc).fits⟩
  | baseline hvalue hbase hbranches hused =>
    have hjoined := (inferBranches_fits env _ hbranches hc).getD
    exact ⟨hjoined.combine (infer_isFaithful env _ hvalue hc).fits hused, baseline_fits hc hbase⟩
  | letDiamond hvalue _ _ hrest _ | letBox _ _ hrest _ hvalue =>
    have hrest := infer_isFaithful env _ hrest (nodup_names_bind hc)
    exact ⟨(infer_isFaithful env _ hvalue hc).fits, hrest.remove.fits⟩

/--
What an expression uses is bound in the context, has the same type there and occurs free in the expression. Graded
variables stay graded, and those that occur free are among the uses. Hence uses that are added up have the same
types, and adding them up does not fail for their types (of which each is equal to itself unless it has a literal that
is not a number).
-/
theorem uses_faithful_to_context (env : Env) (e : Expr) (c : Context) (polarity : Polarity) (hc : c.names.Nodup)
    : (∀ s used s', Answers env c polarity e s used s' →
        used.names.Nodup ∧
        (∀ x a, used.lookup? x = some a → x ∈ e.freeVars ∧
          ∃ b, c.lookup? x = some b ∧ a.ty = b.ty ∧ (b.isLinear = false → a.isLinear = false)) ∧
        (∀ x ∈ e.freeVars, ∀ ty g, c.lookup? x = some (.graded ty g) →
          ∃ g', used.lookup? x = some (.graded ty g'))) ∧
      (∀ goal s pos left right t, Combines env c polarity goal e s pos left right t →
        (∀ x a b, left.lookup? x = some a → right.lookup? x = some b → a.ty = b.ty) ∧
        ((∀ x b, c.lookup? x = some b → (b.ty == b.ty) = true) →
          ∀ error t', combine pos left right t = .error error t' → error.NotMismatch)) := by
  constructor
  . intro s used s' h
    obtain ⟨goal, r, hinfer, rfl⟩ := h.infer
    have hdrawn := infer_drawnFrom env e hinfer hc
    have hfaithful := infer_isFaithful env e hinfer hc
    refine ⟨hdrawn.nodup, fun x a ha => ⟨?_, hfaithful.fits.lookup? ha⟩, fun x hx ty g hg => ?_⟩
    . exact List.mem_eraseDups.mpr (hdrawn.free x (isSome_lookup?_iff.mp (by rw [ha]; rfl)))
    . have hmem := hfaithful.kept x ty g hg (List.mem_eraseDups.mp hx)
      obtain ⟨a, ha⟩ := Option.isSome_iff_exists.mp (isSome_lookup?_iff.mpr hmem)
      obtain ⟨b, hb, hty, hgraded⟩ := hfaithful.fits.lookup? ha
      cases hg.symm.trans hb
      cases a with
      | linear ty' => cases hgraded rfl
      | graded ty' g' =>
        cases hty
        exact ⟨g', ha⟩
  . intro goal s pos left right t h
    obtain ⟨hleft, hright⟩ := h.fit hc
    refine ⟨fun x a b ha hb => (hleft.lookup? ha).ty_eq (hright.lookup? hb), ?_⟩
    intro htypes error t' herror
    exact combine_notMismatch htypes hleft hright herror

/-- Both components use `x`, the first of them in the branches of a case. -/
theorem uses_faithful_to_context_shared
    : let c : Context := ⟨[("x", .graded (.const "Int") (.nat 3)), ("y", .linear (.const "Int"))]⟩
      let second : Expr := .binop 0 .add (.var 0 "x") (.var 0 "y")
      let e : Expr := .pair 0 (.agreeing "x") second
      c.names.Nodup ∧
        (∃ used s', Answers ⟨.standard, []⟩ c .positive e .start used s' ∧ used.names.Nodup ∧
          ∃ g, used.lookup? "x" = some (.graded (.const "Int") g)) ∧
        ∃ left right t, Combines ⟨.standard, []⟩ c .positive .synthesize e .start 0 left right t ∧
          "x" ∈ left.names ∧ "x" ∈ right.names ∧
            ∀ error t', combine 0 left right t = .error error t' → error.NotMismatch := by
  intro c second e
  have hc : c.names.Nodup := by decide
  have hrun : yields (e.synthesize ⟨.standard, []⟩ c .positive) .start (fun _ _ => true) = true := by
    cbv
  obtain ⟨⟨ty, used⟩, s', hsynthesize, _⟩ := exists_of_yields hrun
  have hanswers : Answers ⟨.standard, []⟩ c .positive e .start used s' := .inr ⟨ty, hsynthesize⟩
  obtain ⟨hanswer, hcombines⟩ := uses_faithful_to_context ⟨.standard, []⟩ e c .positive hc
  obtain ⟨hnodup, _, hkept⟩ := hanswer _ _ _ hanswers
  refine ⟨hc, ⟨used, s', hanswers, hnodup, hkept "x" (by decide +kernel) _ _ rfl⟩, ?_⟩
  have hfirst : yields (infer ⟨.standard, []⟩ (.agreeing "x") c .positive .synthesize) .start (fun l t =>
      decide ("x" ∈ l.used.names) && yields (infer ⟨.standard, []⟩ second c .positive .synthesize) t (fun r _ =>
        decide ("x" ∈ r.used.names))) = true := by
    cbv
  obtain ⟨left, s₁, hleft, hfirst⟩ := exists_of_yields hfirst
  rw [Bool.and_eq_true, decide_eq_true_iff] at hfirst
  obtain ⟨right, s₂, hright, hsecond⟩ := exists_of_yields hfirst.2
  rw [decide_eq_true_iff] at hsecond
  have hpair : Combines ⟨.standard, []⟩ c .positive .synthesize e .start 0 left.used right.used s₂ :=
    .pair (by rintro _ _ _ ⟨⟩) hleft hright
  refine ⟨_, _, _, hpair, hfirst.1, hsecond, (hcombines _ _ _ _ _ _ hpair).2 ?_⟩
  have htypes : c.bindings.all (fun b => b.2.ty == b.2.ty) = true := by decide +kernel
  exact fun x b hb => List.all_eq_true.mp htypes _ (mem_of_lookup hb)

/--
Two uses of one variable do not add up if its type has a literal that is not a number, although both have this type.
-/
theorem uses_mismatch_at_nan
    : let ty : Ty := .box (.float (0 / 0)) (.const "Int")
      let c : Context := ⟨[("x", .graded ty (.nat 2))]⟩
      let x : Expr := .var 0 "x"
      c.names.Nodup ∧
        ∃ left right t, Combines ⟨.standard, []⟩ c .positive .synthesize (.pair 0 x x) .start 0 left right t ∧
          combine 0 left right t = .error (.ofCause 0 (.typeMismatch ty ty)) t := by
  intro ty c x
  have hty : (ty == ty) = false := by decide +kernel
  let a : Assumption := .graded ty (.one .nat)
  let used : Context := ⟨[("x", a)]⟩
  have hx : infer ⟨.standard, []⟩ x c .positive .synthesize .start = .ok ⟨ty, used, []⟩ .start := rfl
  have hpair : Combines ⟨.standard, []⟩ c .positive .synthesize (.pair 0 x x) .start 0 used used .start :=
    .pair (by rintro _ _ _ ⟨⟩) hx hx
  exact ⟨by decide, used, used, .start, hpair, combine_mismatch (a := a) (b := a) hty 0 .start⟩

end Expr
end GradedModal
