import GradedModal.Proofs.Linearity

/-!
This module says what checking leaves of a context. What an expression uses is bound in the context and occurs in the
expression, a linear variable that is still linear has kept its type, and a graded use of a variable stays graded
whatever it is combined with.
-/

namespace GradedModal

open CheckM

namespace Context

variable {pos : Nat} {c left right used : Context} {x y : String} {a : Assumption} {s s' : State}

theorem nodup_names_filter (h : c.names.Nodup) (keep : String → Assumption → Bool) : (c.filter keep).names.Nodup :=
  h.sublist (List.filter_sublist.map _)

theorem nodup_names_bind (h : c.names.Nodup) : (c.bind x a).names.Nodup := by
  have hx : x ∉ (c.remove x).names := by
    rw [← lookup?_eq_none_iff, lookup?_remove, if_pos rfl]
  unfold names Context.bind
  rw [List.map_append, List.map_singleton]
  refine List.nodup_append.mpr ⟨nodup_names_filter h _, by simp, ?_⟩
  rintro y hy z hz rfl
  rw [List.mem_singleton.mp hz] at hy
  exact hx hy

theorem nodup_names_foldl_bind {bindings : List (String × Assumption)} (h : c.names.Nodup)
    : (bindings.foldl (fun c (x, a) => c.bind x a) c).names.Nodup := by
  induction bindings generalizing c with
  | nil => exact h
  | cons b bindings ih => exact ih (nodup_names_bind h)

theorem nodup_names_bindAll (h : c.names.Nodup) (other : Context) : (c.bindAll other).names.Nodup :=
  nodup_names_foldl_bind h

theorem names_freshen {vars : List String} {demand : Grade} (h : freshen pos vars c demand s = .ok used s')
    : used.names = (c.restrict vars).names := by
  unfold freshen at h
  rw [bind_eq_ok] at h
  obtain ⟨kind, s₁, _, h⟩ := h
  rw [bind_eq_ok] at h
  obtain ⟨bindings, s₂, hbindings, h⟩ := h
  rw [pure_eq_ok] at h
  obtain ⟨rfl, rfl⟩ := h
  unfold names
  generalize (c.restrict vars).bindings = old at hbindings ⊢
  clear * - hbindings
  induction old generalizing bindings s₁ with
  | nil =>
    rw [List.mapM_nil, pure_eq_ok] at hbindings
    rw [← hbindings.1]
  | cons b old ih =>
    rw [List.mapM_cons] at hbindings
    simp only [bind_eq_ok, pure_eq_ok] at hbindings
    obtain ⟨_, _, ⟨a, _, _, rfl, rfl⟩, rest, _, hrest, rfl, rfl⟩ := hbindings
    rw [List.map_cons, List.map_cons, ih _ _ hrest]

theorem lookup?_of_mem (h : c.names.Nodup) (hmem : (x, a) ∈ c.bindings) : c.lookup? x = some a := by
  unfold names at h
  unfold lookup?
  generalize c.bindings = bindings at h hmem
  induction bindings with
  | nil => cases hmem
  | cons b bindings ih =>
    rw [List.map_cons, List.nodup_cons] at h
    rw [List.mem_cons] at hmem
    obtain rfl | hmem := hmem
    . exact List.lookup_cons_self
    . have hne : x ≠ b.1 := by
        rintro rfl
        exact h.1 (List.mem_map.mpr ⟨_, hmem, rfl⟩)
      obtain ⟨y, b⟩ := b
      have hbeq : (x == y) = false := by
        simpa using hne
      rw [List.lookup_cons, hbeq]
      exact ih h.2 hmem

/--
What was used is bound, each variable once, and is among the given variables.
-/
structure DrawnFrom (used c : Context) (vars : List String) : Prop where
  nodup : used.names.Nodup
  bound : ∀ x ∈ used.names, x ∈ c.names
  free : ∀ x ∈ used.names, x ∈ vars

namespace DrawnFrom

variable {vars vars' : List String}

theorem empty : Context.empty.DrawnFrom c vars where
  nodup := List.nodup_nil
  bound _ hx := nomatch hx
  free _ hx := nomatch hx

theorem singleton (hc : x ∈ c.names) (hvars : x ∈ vars) : (Context.singleton x a).DrawnFrom c vars where
  nodup := nodup_names_bind List.nodup_nil
  bound y hy := by
    rw [List.mem_singleton.mp hy]
    exact hc
  free y hy := by
    rw [List.mem_singleton.mp hy]
    exact hvars

theorem combine (hleft : left.DrawnFrom c vars) (hright : right.DrawnFrom c vars')
    (h : Context.combine pos left right s = .ok used s') : used.DrawnFrom c (vars ++ vars') where
  nodup := nodup_names_combine hright.nodup h
  bound x hx := ((mem_names_combine h).mp hx).elim (hleft.bound x) (hright.bound x)
  free x hx := List.mem_append.mpr (((mem_names_combine h).mp hx).imp (hleft.free x) (hright.free x))

-- A variable that is bound in between is used up.
theorem remove (h : used.DrawnFrom (c.bind x a) vars) : (used.remove x).DrawnFrom c (vars.filter (· != x)) := by
  have hmem : ∀ y ∈ (used.remove x).names, y ∈ used.names ∧ y ≠ x := by
    intro y hy
    rw [← isSome_lookup?_iff, lookup?_remove] at hy
    split at hy
    . cases hy
    . next hne => exact ⟨isSome_lookup?_iff.mp hy, hne⟩
  refine ⟨nodup_names_filter h.nodup _, fun y hy => ?_, fun y hy => ?_⟩
  . obtain ⟨hy, hne⟩ := hmem y hy
    have hbound := h.bound y hy
    rw [← isSome_lookup?_iff, lookup?_bind, if_neg hne, isSome_lookup?_iff] at hbound
    exact hbound
  . obtain ⟨hy, hne⟩ := hmem y hy
    simp [h.free y hy, hne]

theorem mono (h : used.DrawnFrom c vars) (hvars : ∀ x ∈ vars, x ∈ vars') : used.DrawnFrom c vars' where
  nodup := h.nodup
  bound := h.bound
  free x hx := hvars x (h.free x hx)

end DrawnFrom

def LinearKept (c used : Context) : Prop :=
  ∀ x ty, c.lookup? x = some (.linear ty) → used.Ungraded x

theorem Ungraded.of_combine (hu : used.Ungraded x) (h : combine pos left right s = .ok used s')
    : left.Ungraded x ∧ right.Ungraded x := by
  unfold Ungraded at *
  have hadds := lookup?_combine h x
  generalize left.lookup? x = l at *
  generalize right.lookup? x = r at *
  generalize used.lookup? x = u at *
  cases hadds with
  | right => exact ⟨fun _ _ h => (nomatch h), hu⟩
  | left => exact ⟨hu, fun _ _ h => (nomatch h)⟩
  | sum => exact absurd rfl (hu _ _)

theorem Ungraded.of_join (hu : used.Ungraded x) (h : join pos left right s = .ok used s')
    : left.Ungraded x ∧ right.Ungraded x := by
  unfold Ungraded at *
  have hjoins := lookup?_join h x
  generalize left.lookup? x = l at *
  generalize right.lookup? x = r at *
  generalize used.lookup? x = u at *
  cases hjoins with
  | unused => exact ⟨hu, hu⟩
  | leftOnly ty | rightOnly ty | linear ty ty' => exact ⟨fun _ _ h => (nomatch h), fun _ _ h => (nomatch h)⟩
  | gradedLeft ty g v | gradedRight ty g v | graded ty ty' g h v => exact absurd rfl (hu _ _)

namespace LinearKept

theorem of_combine (hc : c.LinearKept used) (h : combine pos left right s = .ok used s')
    : c.LinearKept left ∧ c.LinearKept right :=
  ⟨fun x ty hx => ((hc x ty hx).of_combine h).1, fun x ty hx => ((hc x ty hx).of_combine h).2⟩

theorem bind (hc : c.LinearKept (used.remove x)) (hx : ∀ ty, a = .linear ty → used.Ungraded x)
    : (c.bind x a).LinearKept used := by
  intro y ty hy
  rw [lookup?_bind] at hy
  split at hy
  . next heq =>
    subst heq
    exact hx ty (Option.some.inj hy)
  . next hne =>
    have hrest := hc y ty hy
    unfold Ungraded at hrest
    rw [lookup?_remove, if_neg hne] at hrest
    exact hrest

-- What is linear is not used with a grade if it is used as it is allowed to be.
theorem of_le (h : le pos (used.intersect c) c s = .ok () s') : c.LinearKept used := by
  intro x ty hx ty' g hgraded
  have hbelow := lookup?_le (K := fun _ => True) h (fun _ _ => trivial) x
  rw [lookup?_intersect, hx, hgraded] at hbelow
  cases hbelow

-- Nothing is linear inside of a box.
theorem of_freshen {vars : List String} {demand : Grade} {fresh : Context}
    (h : freshen pos vars c demand s = .ok fresh s')
    : fresh.LinearKept used := by
  intro x ty hx
  have hfreshens := lookup?_freshen h x
  generalize (if x ∈ vars then c.lookup? x else none) = outside at hfreshens
  rw [hx] at hfreshens
  cases hfreshens

end LinearKept

end Context

open Context

namespace Expr

variable {env : Env} {c used : Context} {polarity : Polarity} {goal : Goal} {pos : Nat} {x : String} {s s' : State}
  {r : Typed}

theorem eq_graded_of_baseline {branches : List (Pattern × Expr)} {base : Context} {a : Assumption} (hc : c.names.Nodup)
    (h : baseline pos c branches s = .ok base s') (ha : base.lookup? x = some a)
    : ∃ ty g v, c.lookup? x = some (.graded ty g) ∧ a = .graded ty (.var v) := by
  unfold baseline at h
  rw [bind_eq_ok] at h
  obtain ⟨bindings, s₁, hbindings, h⟩ := h
  rw [pure_eq_ok] at h
  obtain ⟨rfl, rfl⟩ := h
  obtain ⟨ty, g, v, hmem, rfl⟩ := (mem_baseline hbindings).1 x a (lookup?_ofList_eq_some ha)
  exact ⟨ty, g, v, lookup?_of_mem hc (List.mem_filter.mp (List.mem_filter.mp hmem).1).1, rfl⟩

theorem lookup?_of_baseline {branches : List (Pattern × Expr)} {base : Context} (hc : c.names.Nodup)
    (h : baseline pos c branches s = .ok base s') (hx : x ∈ base.names)
    : x ∈ freeOccurrencesAll branches ∧ ∃ ty g, c.lookup? x = some (.graded ty g) := by
  obtain ⟨a, ha⟩ := Option.isSome_iff_exists.mp (isSome_lookup?_iff.mpr hx)
  obtain ⟨ty, g, _, hgraded, _⟩ := eq_graded_of_baseline hc h ha
  exact ⟨List.mem_eraseDups.mp (lookup?_baseline_eq_some h ha).1, ty, g, hgraded⟩

theorem nodup_names_baseline {branches : List (Pattern × Expr)} {base : Context}
    (h : baseline pos c branches s = .ok base s') : base.names.Nodup := by
  unfold baseline at h
  rw [bind_eq_ok] at h
  obtain ⟨bindings, s₁, _, h⟩ := h
  rw [pure_eq_ok] at h
  obtain ⟨rfl, rfl⟩ := h
  exact nodup_names_foldl_bind List.nodup_nil

theorem varTy_drawnFrom {name : String} {ty : Ty} (h : varTy env c pos name s = .ok (ty, used) s')
    : used.DrawnFrom c [name] := by
  obtain ⟨hx, rfl⟩ | ⟨_, _, hx, rfl⟩ | ⟨_, _, _, _, rfl⟩ := varTy_eq_ok h
  . exact .singleton (isSome_lookup?_iff.mp (by simp [hx])) (by simp)
  . exact .singleton (isSome_lookup?_iff.mp (by simp [hx])) (by simp)
  . exact .empty

theorem promote_drawnFrom {e : Expr} {fresh : Context} {demand : Grade} (hc : c.names.Nodup)
    (h : freshen pos (e.freeVars.filter c.contains) c demand s = .ok fresh s')
    : (fresh.scale (e.freeVars.filter c.contains) demand).DrawnFrom c e.freeOccurrences := by
  have hmem : ∀ x ∈ (fresh.scale (e.freeVars.filter c.contains) demand).names, x ∈ e.freeVars.filter c.contains := by
    intro x hx
    rw [← isSome_lookup?_iff, lookup?_scale] at hx
    split at hx
    . next hmem => exact hmem
    . cases hx
  constructor
  . rw [names_scale]
    apply nodup_names_filter
    rw [names_freshen h]
    exact nodup_names_filter hc _
  . intro x hx
    exact isSome_lookup?_iff.mp (List.mem_filter.mp (hmem x hx)).2
  . intro x hx
    exact List.mem_eraseDups.mp (List.mem_filter.mp (hmem x hx)).1

def JoinedFrom (c : Context) (vars : List String) (used : Option Context) : Prop :=
  ∀ u, used = some u → ∀ x ∈ u.names, x ∈ c.names ∧ x ∈ vars

-- What is left of a branch is neither bound by its pattern nor covered by the baseline.
theorem mem_net {info : CaseInfo} {p : Pattern} {bodyPos : Nat} {matched : Matched} {net : Context}
    (h : closeBranch info p bodyPos matched used s = .ok net s') (hx : x ∈ net.names)
    : x ∈ used.names ∧ info.baseline.lookup? x = none ∧ matched.context.lookup? x = none := by
  obtain ⟨_, rfl, _⟩ := closeBranch_eq_ok.mp h
  rw [← isSome_lookup?_iff, lookup?_subtract, lookup?_subtract] at hx
  cases hmatched : matched.context.lookup? x with
  | some a => simp [hmatched] at hx
  | none =>
    cases hbase : info.baseline.lookup? x with
    | some a => simp [hmatched, hbase] at hx
    | none =>
      simp only [hmatched, hbase, Option.isSome_none, Bool.false_eq_true, if_false] at hx
      exact ⟨isSome_lookup?_iff.mp hx, rfl, rfl⟩

theorem mem_names_branchUsed {info : CaseInfo} {previous : Option Context} {net : Context}
    (h : branchUsed info previous net s = .ok used s') (hx : x ∈ used.names)
    : (∃ u, previous = some u ∧ x ∈ u.names) ∨ x ∈ net.names := by
  unfold branchUsed at h
  split at h
  . rw [pure_eq_ok] at h
    rw [← h.1] at hx
    exact .inr hx
  . next u =>
    have hjoins := lookup?_join h x
    rw [← isSome_lookup?_iff] at hx ⊢
    cases hu : u.lookup? x with
    | some a => exact .inl ⟨u, rfl, isSome_lookup?_iff.mp (by simp [hu])⟩
    | none =>
      rw [hu] at hjoins
      generalize net.lookup? x = n at hjoins ⊢
      generalize used.lookup? x = t at hjoins hx
      cases hjoins with
      | unused => cases hx
      | rightOnly ty => cases hx
      | gradedRight ty g v => exact .inr rfl

/--
A property of what is used of a context, given the variables that occur. It is kept wherever checking puts uses
together; the branches of a case have another property on the way.
-/
structure UseClosed (env : Env) (P : Context → List String → Context → Prop)
    (J : Context → List String → Option Context → Prop) : Prop where
  empty : ∀ {c}, P c [] .empty
  var : ∀ {c pos name ty used s s'}, varTy env c pos name s = .ok (ty, used) s' → P c [name] used
  remove : ∀ {c x a vars used}, P (c.bind x a) vars used → P c (vars.filter (· != x)) (used.remove x)
  combine : ∀ {c vars left vars' right pos used s s'}, P c vars left → P c vars' right →
    Context.combine pos left right s = .ok used s' → P c (vars ++ vars') used
  scaling : ∀ {c f factor vars used}, scaleFactor? c f = some factor → P c vars used →
    P c (f.freeOccurrences ++ vars) used
  promoteChecked : ∀ {c pos demand fresh s s'} {e : Expr}, c.names.Nodup →
    freshen pos (e.freeVars.filter c.contains) c demand s = .ok fresh s' →
    P c e.freeOccurrences (fresh.scale (e.freeVars.filter c.contains) demand)
  promote : ∀ {c used} {e : Expr} grade, P c e.freeOccurrences used →
    P c e.freeOccurrences (used.scale e.freeVars grade)
  case : ∀ {c pos branches base vars value joined used total s s₁ s₂ s₃ s₄ s'}, c.names.Nodup →
    baseline pos c branches s = .ok base s₁ → P c vars value → J c (freeOccurrencesAll branches) joined →
    Context.combine pos (joined.getD .empty) value s₂ = .ok used s₃ →
    Context.combine pos used base s₄ = .ok total s' → P c (vars ++ freeOccurrencesAll branches) total
  start : ∀ {c}, J c [] none
  branch : ∀ {info p matched bodyPos net previous total vars vars' used s s₁ s₂ s₃ s₄ s'},
    p.matchTy env info.scrutinee s = .ok matched s₁ → P (info.context.bindAll matched.context) vars' used →
    closeBranch info p bodyPos matched used s₂ = .ok net s₃ → branchUsed info previous net s₄ = .ok total s' →
    J info.context vars previous →
    J info.context (vars ++ vars'.filter (!p.boundVars.contains ·)) (some total)

mutual

theorem UseClosed.infer {P : Context → List String → Context → Prop} {J : Context → List String → Option Context → Prop}
    (hP : UseClosed env P J) (e : Expr) {c : Context} {polarity : Polarity} {goal : Goal} {r : Typed} {s s' : State}
    (h : infer env e c polarity goal s = .ok r s') (hc : c.names.Nodup) : P c e.freeOccurrences r.used := by
  cases e with
  | int pos n =>
    obtain ⟨_, _, _, rfl, _⟩ | h := infer_int h
    . exact hP.empty
    . rw [conclude_used h]
      exact hP.empty
  | float pos x =>
    obtain ⟨_, _, _, rfl, _⟩ | h := infer_float h
    . exact hP.empty
    . rw [conclude_used h]
      exact hP.empty
  | constructor pos name =>
    obtain ⟨_, _, _, h⟩ := infer_constructor h
    rw [conclude_used h]
    exact hP.empty
  | var pos name =>
    obtain ⟨_, _, _, hvar, h⟩ := infer_var h
    rw [conclude_used h]
    exact hP.var hvar
  | lam pos b declared body =>
    obtain ⟨_, _, _, _, _, _, _, hbody, _, rfl⟩ | ⟨_, _, _, _, _, hbody, _, h⟩ := infer_lam h
    . exact hP.remove (hP.infer body hbody (nodup_names_bind hc))
    . rw [conclude_used h]
      exact hP.remove (hP.infer body hbody (nodup_names_bind hc))
  | app pos f a =>
    obtain ⟨_, _, _, _, hfactor, ha, rfl⟩ | ⟨_, _, _, _, _, _, _, _, ha, hf, hused, rfl⟩ |
      ⟨_, _, _, _, _, _, _, _, hf, _, ha, hused, rfl⟩ := infer_app h
    . have ha := hP.infer a ha hc
      exact hP.scaling hfactor ha
    . exact hP.combine (hP.infer f hf hc) (hP.infer a ha hc) hused
    . exact hP.combine (hP.infer f hf hc) (hP.infer a ha hc) hused
  | promote pos e =>
    obtain ⟨_, _, _, _, _, _, _, _, hfresh, _, _, rfl⟩ | ⟨_, _, _, _, _, _, _, _, _, he, h⟩ := infer_promote h
    . exact hP.promoteChecked hc hfresh
    . rw [conclude_used h]
      exact hP.promote _ (hP.infer e he hc)
  | lift pos e =>
    obtain ⟨_, _, _, _, _, he, rfl⟩ | ⟨_, _, _, he, h⟩ := infer_lift h
    . have he := hP.infer e he hc
      exact he
    . rw [conclude_used h]
      exact hP.infer e he hc
  | binop pos op a b =>
    obtain ⟨_, _, _, _, _, _, _, _, _, _, _, ha, hb, hused, h⟩ := infer_binop h
    rw [conclude_used h]
    exact hP.combine (hP.infer a ha hc) (hP.infer b hb hc) hused
  | pair pos a b =>
    obtain ⟨_, _, _, _, _, _, _, _, _, _, _, ha, hb, hused, _, rfl⟩ | ⟨_, _, _, _, _, _, _, ha, hb, hused, h⟩ :=
      infer_pair h
    . exact hP.combine (hP.infer a ha hc) (hP.infer b hb hc) hused
    . rw [conclude_used h]
      exact hP.combine (hP.infer a ha hc) (hP.infer b hb hc) hused
  | case pos scrutinee branches =>
    obtain ⟨value, base, joined, used, _, _, _, _, hvalue, hbase, hbranches, hused, hused', _⟩ := infer_case h
    exact hP.case hc hbase (hP.infer scrutinee hvalue hc) (hP.inferBranches branches [] hbranches hc hP.start) hused
      hused'
  | letDiamond pos b declared value rest =>
    obtain ⟨_, _, _, _, _, _, _, _, _, _, _, hvalue, _, _, hrest, _, _, hused, h⟩ := infer_letDiamond h
    rw [conclude_used h]
    exact hP.combine (hP.infer value hvalue hc) (hP.remove (hP.infer rest hrest (nodup_names_bind hc))) hused
  | letBox pos b ty value rest =>
    obtain ⟨_, _, _, _, _, _, _, _, _, _, _, _, _, _, hrest, _, hvalue, hused, h⟩ := infer_letBox h
    rw [conclude_used h]
    exact hP.combine (hP.infer value hvalue hc) (hP.remove (hP.infer rest hrest (nodup_names_bind hc))) hused

theorem UseClosed.inferBranches {P : Context → List String → Context → Prop}
    {J : Context → List String → Option Context → Prop} (hP : UseClosed env P J) (branches : List (Pattern × Expr))
    (vars : List String) {info : CaseInfo} {joined result : Joined} {s s' : State}
    (h : inferBranches env info branches joined s = .ok result s') (hc : info.context.names.Nodup)
    (hjoined : J info.context vars joined.used)
    : J info.context (vars ++ freeOccurrencesAll branches) result.used := by
  cases branches with
  | nil =>
    unfold Expr.inferBranches at h
    rw [pure_eq_ok] at h
    obtain ⟨rfl, _⟩ := h
    unfold freeOccurrencesAll
    rw [List.append_nil]
    exact hjoined
  | cons branch branches =>
    obtain ⟨p, body⟩ := branch
    obtain ⟨_, _, _, _, _, _, _, _, _, _, _, _, _, hmatch, _, hbody, _, hclose, hused, h⟩ := inferBranches_cons h
    unfold freeOccurrencesAll
    rw [← List.append_assoc]
    apply hP.inferBranches branches _ h hc
    exact hP.branch hmatch (hP.infer body hbody (nodup_names_bindAll hc _)) hclose hused hjoined

end

theorem useClosed_drawnFrom (env : Env)
    : UseClosed env (fun c vars used => used.DrawnFrom c vars) JoinedFrom where
  empty := .empty
  var := varTy_drawnFrom
  remove := DrawnFrom.remove
  combine := DrawnFrom.combine
  scaling _ ha := ha.mono fun x hx => List.mem_append_right _ hx
  promoteChecked := promote_drawnFrom
  promote grade he := by
    refine ⟨?_, fun x hx => ?_, fun x hx => ?_⟩
    . rw [names_scale]
      exact nodup_names_filter he.nodup _
    . rw [names_scale] at hx
      exact he.bound x ((List.filter_sublist.map _).subset hx)
    . rw [names_scale] at hx
      exact he.free x ((List.filter_sublist.map _).subset hx)
  case := by
    intro c pos branches base vars value joined used total _ _ _ _ _ _ hc hbase hvalue hjoined hused htotal
    have hleft : ∀ x ∈ (joined.getD .empty).names, x ∈ c.names ∧ x ∈ freeOccurrencesAll branches := by
      intro x hx
      cases joined with
      | none => cases hx
      | some u => exact hjoined u rfl x hx
    have hboth : ∀ x ∈ total.names, x ∈ c.names ∧ x ∈ vars ++ freeOccurrencesAll branches := by
      intro x hx
      rw [mem_names_combine htotal, mem_names_combine hused] at hx
      obtain (hx | hx) | hx := hx
      . exact ⟨(hleft x hx).1, List.mem_append_right _ (hleft x hx).2⟩
      . exact ⟨hvalue.bound x hx, List.mem_append_left _ (hvalue.free x hx)⟩
      . obtain ⟨hfree, _, _, hx⟩ := lookup?_of_baseline hc hbase hx
        exact ⟨isSome_lookup?_iff.mp (by simp [hx]), List.mem_append_right _ hfree⟩
    exact ⟨nodup_names_combine (nodup_names_baseline hbase) htotal, fun x hx => (hboth x hx).1,
      fun x hx => (hboth x hx).2⟩
  start _ h := nomatch h
  branch := by
    intro info p matched _ net previous total vars vars' used _ _ _ _ _ _ hmatch hbody hclose hused hjoined
    have hbinds := Pattern.matchTy_binds hmatch
    rintro _ ⟨⟩ x hx
    obtain ⟨u, hu, hx⟩ | hx := mem_names_branchUsed hused hx
    . obtain ⟨hbound, hvars⟩ := hjoined u hu x hx
      exact ⟨hbound, List.mem_append_left _ hvars⟩
    . obtain ⟨hx, _, hmatched⟩ := mem_net hclose hx
      have hp : x ∉ p.boundVars := fun hp => lookup?_eq_none_iff.mp hmatched (hbinds.bound x hp)
      refine ⟨?_, List.mem_append_right _ (List.mem_filter.mpr ⟨hbody.free x hx, by simp [hp]⟩)⟩
      have hbound := hbody.bound x hx
      rw [← isSome_lookup?_iff, lookup?_bindAll hbinds.nodup, hmatched, Option.none_or, isSome_lookup?_iff] at hbound
      exact hbound

theorem infer_drawnFrom (env : Env) (e : Expr) {c : Context} {polarity : Polarity} {goal : Goal} {r : Typed}
    {s s' : State} (h : infer env e c polarity goal s = .ok r s') (hc : c.names.Nodup)
    : r.used.DrawnFrom c e.freeOccurrences :=
  (useClosed_drawnFrom env).infer e h hc

theorem inferBranches_ungraded {branches : List (Pattern × Expr)} {info : CaseInfo} {ty : Option Ty} {u : Context}
    {result : Joined} (h : inferBranches env info branches ⟨ty, some u⟩ s = .ok result s')
    : ∃ u', result.used = some u' ∧ ∀ x, u'.Ungraded x → u.Ungraded x := by
  induction branches generalizing ty u s with
  | nil =>
    unfold inferBranches at h
    rw [pure_eq_ok] at h
    obtain ⟨rfl, _⟩ := h
    exact ⟨u, rfl, fun _ hx => hx⟩
  | cons branch branches ih =>
    obtain ⟨p, body⟩ := branch
    obtain ⟨_, _, _, _, _, _, _, _, _, _, _, _, _, _, _, _, _, _, hused, h⟩ := inferBranches_cons h
    obtain ⟨u', hu', hungraded⟩ := ih h
    exact ⟨u', hu', fun x hx => ((hungraded x hx).of_join hused).1⟩

end Expr
end GradedModal
