import Mathlib
import GradedModal.Proofs.Patterns
import GradedModal.Proofs.Infer

/-!
This module says what checking reads of its context: the bindings of the free variables of the expression, in their
order. Contexts that agree on these lead to the same result and to the same state.
-/

namespace GradedModal

open CheckM

-- The continuations may differ where the first check fails.
theorem CheckM.bind_congr_of_ok {α β : Type} {x : CheckM α} {f g : α → CheckM β} {s : State}
    (h : ∀ a s', x s = .ok a s' → f a s' = g a s') : (x >>= f) s = (x >>= g) s := by
  cases hx : x s with
  | ok a s' => rw [bind_of_ok hx, bind_of_ok hx, h a s' hx]
  | error e s' => rw [bind_of_error hx, bind_of_error hx]

namespace Context

def AgreesOn (vars : List String) (c d : Context) : Prop :=
  c.restrict vars = d.restrict vars

variable {vars vars' : List String} {c d : Context} {x : String}

theorem restrict_restrict (h : ∀ x ∈ vars, x ∈ vars') (c : Context)
    : (c.restrict vars').restrict vars = c.restrict vars := by
  unfold restrict filter
  rw [List.filter_filter]
  congr 1
  apply List.filter_congr
  intro b _
  by_cases hb : b.1 ∈ vars
  . simp [hb, h b.1 hb]
  . simp [hb]

theorem restrict_bind (vars : List String) (c : Context) (x : String) (a : Assumption)
    : (c.bind x a).restrict vars
        =
      ⟨(c.restrict (vars.filter (· != x))).bindings ++ (Context.restrict ⟨[(x, a)]⟩ vars).bindings⟩ := by
  unfold restrict bind remove filter
  rw [List.filter_append, List.filter_filter]
  congr 2
  apply List.filter_congr
  intro b _
  by_cases hb : b.1 = x
  . simp [hb]
  . simp [hb]

namespace AgreesOn

theorem mono (h : AgreesOn vars' c d) (hvars : ∀ x ∈ vars, x ∈ vars') : AgreesOn vars c d := by
  unfold AgreesOn at h ⊢
  rw [← restrict_restrict hvars c, h, restrict_restrict hvars d]

theorem lookup? (h : AgreesOn vars c d) (hx : x ∈ vars) : c.lookup? x = d.lookup? x := by
  have hlookup : (c.restrict vars).lookup? x = (d.restrict vars).lookup? x := by
    rw [h]
  rw [lookup?_restrict, lookup?_restrict, if_pos hx, if_pos hx] at hlookup
  exact hlookup

theorem contains (h : AgreesOn vars c d) (hx : x ∈ vars) : c.contains x = d.contains x := by
  unfold Context.contains
  rw [h.lookup? hx]

theorem bind (h : AgreesOn (vars.filter (· != x)) c d) (a : Assumption)
    : AgreesOn vars (c.bind x a) (d.bind x a) := by
  unfold AgreesOn at h ⊢
  rw [restrict_bind, restrict_bind, h]

-- Each binding adds its name to those on which the contexts agree.
theorem bindAll {other : Context} (h : AgreesOn vars' c d) (hvars : ∀ x ∈ vars, x ∈ vars' ∨ x ∈ other.names)
    : AgreesOn vars (c.bindAll other) (d.bindAll other) := by
  obtain ⟨bindings⟩ := other
  unfold Context.bindAll
  unfold names at hvars
  dsimp only at hvars ⊢
  induction bindings generalizing c d vars' with
  | nil =>
    apply h.mono
    intro x hx
    exact (hvars x hx).resolve_right List.not_mem_nil
  | cons b bindings ih =>
    rw [List.foldl_cons, List.foldl_cons]
    have hbind : AgreesOn (b.1 :: vars') (c.bind b.1 b.2) (d.bind b.1 b.2) := by
      apply AgreesOn.bind
      apply h.mono
      intro x hx
      simp only [List.mem_filter, List.mem_cons, bne_iff_ne] at hx
      exact hx.1.resolve_left hx.2
    apply ih hbind
    intro x hx
    have hx' := hvars x hx
    rw [List.map_cons, List.mem_cons] at hx'
    rw [List.mem_cons]
    tauto

theorem filter_contains (h : AgreesOn vars c d) : vars.filter c.contains = vars.filter d.contains := by
  apply List.filter_congr
  intro x hx
  exact h.contains hx

theorem freshen (h : AgreesOn vars c d) (hvars : ∀ x ∈ vars', x ∈ vars) (pos : Nat) (demand : Grade)
    : Context.freshen pos vars' c demand = Context.freshen pos vars' d demand := by
  have hrestrict : AgreesOn vars' c d := h.mono hvars
  unfold Context.freshen
  rw [hrestrict]

end AgreesOn

theorem gradedOnly_restrict (c : Context) (vars : List String)
    : c.gradedOnly.restrict vars = (c.restrict vars).gradedOnly := by
  unfold gradedOnly restrict filter
  rw [List.filter_filter, List.filter_filter]
  congr 1
  apply List.filter_congr
  intro b _
  exact Bool.and_comm _ _

end Context

namespace Expr

open Context

variable {env : Env} {c d : Context} {polarity : Polarity}

theorem varTy_congr {name : String} (h : c.lookup? name = d.lookup? name) (pos : Nat)
    : varTy env c pos name = varTy env d pos name := by
  unfold varTy
  rw [h]

theorem scaleFactor?_congr {f : Expr} (h : AgreesOn f.freeOccurrences c d) : scaleFactor? c f = scaleFactor? d f := by
  unfold scaleFactor?
  split
  . next name _ _ =>
    rw [h.contains (x := name) (by simp [freeOccurrences])]
  . rfl

theorem baseline_congr {branches : List (Pattern × Expr)} (h : AgreesOn (freeOccurrencesAll branches) c d) (pos : Nat)
    : baseline pos c branches = baseline pos d branches := by
  have hshared : AgreesOn (sharedVars branches) c d :=
    h.mono fun _ => List.mem_eraseDups.mp
  unfold baseline
  rw [gradedOnly_restrict, gradedOnly_restrict, hshared]

mutual

theorem infer_congr (env : Env) (e : Expr) {c d : Context} (h : AgreesOn e.freeOccurrences c d) (polarity : Polarity)
    (goal : Goal) : infer env e c polarity goal = infer env e d polarity goal := by
  cases e with
  | int pos n | float pos x | constructor pos name => simp only [infer]
  | var pos name =>
    unfold freeOccurrences at h
    simp only [infer]
    rw [varTy_congr (h.lookup? List.mem_cons_self)]
  | lam pos b declared body =>
    unfold freeOccurrences at h
    have hbody := fun a => infer_congr env body (h.bind a)
    simp only [infer, hbody]
  | app pos f a =>
    unfold freeOccurrences at h
    have hf := h.mono fun _ => List.mem_append_left _
    have hf' := infer_congr env f hf
    have ha := infer_congr env a (h.mono fun _ => List.mem_append_right _)
    simp only [infer, hf', ha, scaleFactor?_congr hf]
  | promote pos e =>
    unfold freeOccurrences at h
    have he := infer_congr env e h
    have hvars : AgreesOn e.freeVars c d := h.mono fun _ => List.mem_eraseDups.mp
    have hfilter : ∀ x ∈ e.freeVars.filter d.contains, x ∈ e.freeVars := fun _ hx => (List.mem_filter.mp hx).1
    have hfresh := hvars.freshen hfilter
    simp only [infer, he, hvars.filter_contains, hfresh]
  | lift pos e =>
    unfold freeOccurrences at h
    have he := infer_congr env e h
    simp only [infer, he]
  | binop pos op a b | pair pos a b =>
    unfold freeOccurrences at h
    have ha := infer_congr env a (h.mono fun _ => List.mem_append_left _)
    have hb := infer_congr env b (h.mono fun _ => List.mem_append_right _)
    simp only [infer, ha, hb]
  | case pos scrutinee branches =>
    unfold freeOccurrences at h
    have hscrutinee := infer_congr env scrutinee (h.mono fun _ => List.mem_append_left _)
    have hshared : AgreesOn (freeOccurrencesAll branches) c d := h.mono fun _ => List.mem_append_right _
    have hbranches := fun base ty expected =>
      inferBranches_congr env ⟨pos, c, polarity, ty, base, expected⟩ branches hshared
    simp only [infer, hscrutinee, baseline_congr hshared, hbranches]
  | letDiamond pos b declared value rest | letBox pos b ty value rest =>
    unfold freeOccurrences at h
    have hvalue := infer_congr env value (h.mono fun _ => List.mem_append_left _)
    have hrest := fun a => infer_congr env rest ((h.mono fun _ => List.mem_append_right _).bind a)
    simp only [infer, hvalue, hrest]

theorem inferBranches_congr (env : Env) (info : CaseInfo) (branches : List (Pattern × Expr)) {d : Context}
    (h : AgreesOn (freeOccurrencesAll branches) info.context d) (joined : Joined)
    : inferBranches env info branches joined = inferBranches env { info with context := d } branches joined := by
  cases branches with
  | nil => simp only [inferBranches]
  | cons branch branches =>
    obtain ⟨p, body⟩ := branch
    unfold freeOccurrencesAll at h
    have hbranches := inferBranches_congr env info branches (h.mono fun _ => List.mem_append_right _)
    have hbody : AgreesOn (body.freeOccurrences.filter (!p.boundVars.contains ·)) info.context d :=
      h.mono fun _ => List.mem_append_left _
    funext s
    simp only [inferBranches, hbranches]
    apply bind_congr_of_ok
    intro _ s₁ _
    apply bind_congr_of_ok
    intro matched s₂ hmatched
    -- the body sees the variables of the pattern, which are bound in the same way
    have hvars : ∀ x ∈ body.freeOccurrences,
        x ∈ body.freeOccurrences.filter (!p.boundVars.contains ·) ∨ x ∈ matched.context.names := by
      intro x hx
      by_cases hbound : x ∈ p.boundVars
      . exact .inr ((Pattern.matchTy_binds hmatched).bound x hbound)
      . exact .inl (List.mem_filter.mpr ⟨hx, by simp [hbound]⟩)
    have hinner := infer_congr env body (hbody.bindAll hvars)
    simp only [hinner]
    rfl

end

end Expr

/--
What an expression does not mention is not looked at, and what it mentions is all that counts.
-/
theorem only_free_variables_matter (env : Env) (s : State) (polarity : Polarity) (e : Expr) (c d : Context)
    (h : c.restrict e.freeVars = d.restrict e.freeVars)
    : (∀ topLevel expected, e.check env c polarity topLevel expected s = e.check env d polarity topLevel expected s) ∧
      e.synthesize env c polarity s = e.synthesize env d polarity s := by
  have hagrees : Context.AgreesOn e.freeVars c d := h
  have hinfer := Expr.infer_congr env e (hagrees.mono fun _ => List.mem_eraseDups.mpr) polarity
  constructor
  . intro topLevel expected
    unfold Expr.check
    rw [hinfer]
  . unfold Expr.synthesize
    rw [hinfer]

/-- Both contexts bind `x` and `f` in this order, and bind other variables before, between and after them. -/
theorem only_free_variables_matter_promoted
    : let e : Expr := .promote 0 (.app 0 (.var 0 "f") (.var 0 "x"))
      let x : Assumption := .graded (.const "Int") (.nat 2)
      let f : Assumption := .graded (.arrow (.const "Int") (.const "Int")) (.nat 1)
      let c : Context := ⟨[("y", x), ("x", x), ("f", f)]⟩
      let d : Context := ⟨[("x", x), ("z", .linear (.const "Int")), ("f", f), ("w", x)]⟩
      c.restrict e.freeVars = d.restrict e.freeVars ∧
        (∀ topLevel expected, e.check ⟨.standard, []⟩ c .positive topLevel expected .start
          = e.check ⟨.standard, []⟩ d .positive topLevel expected .start) ∧
        e.synthesize ⟨.standard, []⟩ c .positive .start = e.synthesize ⟨.standard, []⟩ d .positive .start := by
  intro e x f c d
  have h : c.restrict e.freeVars = d.restrict e.freeVars := by decide +kernel
  exact ⟨h, only_free_variables_matter _ _ _ _ _ _ h⟩

end GradedModal
