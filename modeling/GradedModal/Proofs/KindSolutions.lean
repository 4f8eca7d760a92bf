import Mathlib
import GradedModal.Proofs.Kinding

/-!
This module says when kinds can be inferred. What is known about kinds is read as equations between them. Two kinds can
be unified if some solution of the equations makes them equal, and the solutions that remain are those that do. This
does not depend on the order in which kinds are learned, so that the kinds of several grades can be inferred in any
order, or in none. Nothing is assumed about what is known at the start, not even that it has no cycles.
-/

namespace GradedModal

open CheckM

def GradeKind.under (θ : String → GradeKind) : GradeKind → GradeKind
  | .var name => θ name
  | kind => kind

namespace State

variable {s s' : State} {θ : String → GradeKind} {name : String} {k l kind next : GradeKind}

/--
Kinds for the undetermined ones that agree with all that is known.
-/
def Solves (s : State) (θ : String → GradeKind) : Prop :=
  ∀ name kind, s.kinds.lookup name = some kind → θ name = kind.under θ

def follow (s : State) : GradeKind → GradeKind
  | .var name => (s.kinds.lookup name).getD (.var name)
  | kind => kind

theorem IsResolved.follow_eq (h : s.IsResolved kind) : s.follow kind = kind := by
  cases kind with
  | var name => simp [follow, h name rfl]
  | _ => rfl

theorem follow_of_lookup (h : s.kinds.lookup name = some next) : s.follow (.var name) = next := by
  simp [follow, h]

theorem go_eq_iterate (s : State) (n : Nat) (kind : GradeKind) : resolve.go s n kind = s.follow^[n] kind := by
  induction n generalizing kind with
  | zero => cases kind <;> rfl
  | succ n ih =>
    cases kind with
    | var name =>
      cases hlookup : s.kinds.lookup name with
      | none =>
        have hresolved : s.IsResolved (.var name) := by
          rintro _ ⟨⟩
          exact hlookup
        rw [hresolved.go_eq, Function.iterate_fixed hresolved.follow_eq]
      | some next => rw [go_of_lookup hlookup, Function.iterate_succ_apply, follow_of_lookup hlookup, ih]
    | _ => exact (Function.iterate_fixed rfl _).symm

theorem Solves.under_follow (h : s.Solves θ) (kind : GradeKind) : (s.follow kind).under θ = kind.under θ := by
  cases kind with
  | var name =>
    cases hlookup : s.kinds.lookup name with
    | none => simp [follow, hlookup]
    | some next =>
      rw [follow_of_lookup hlookup]
      exact (h name next hlookup).symm
  | _ => rfl

theorem Solves.under_resolve (h : s.Solves θ) (kind : GradeKind) : (s.resolve kind).under θ = kind.under θ := by
  unfold resolve
  rw [go_eq_iterate]
  induction s.kinds.length with
  | zero => rfl
  | succ n ih => rw [Function.iterate_succ_apply', h.under_follow, ih]

theorem exists_cycle_of_repeat {i j N : Nat} (hname : s.follow^[N] k = .var name)
    (hnext : s.kinds.lookup name = some next) (hN : i ≤ N) (hij : i < j) (heq : s.follow^[i] k = s.follow^[j] k)
    : ∃ n, s.follow^[n] next = .var name := by
  obtain ⟨d, rfl⟩ := Nat.exists_eq_add_of_le' hN
  obtain ⟨n, rfl⟩ := Nat.exists_eq_add_of_lt hij
  refine ⟨n, ?_⟩
  calc s.follow^[n] next
    _ = s.follow^[n + 1] (s.follow^[d + i] k) := by
      rw [hname, Function.iterate_succ_apply, follow_of_lookup hnext]
    _ = s.follow^[d] (s.follow^[i + n + 1] k) := by
      rw [← Function.iterate_add_apply, ← Function.iterate_add_apply, show n + 1 + (d + i) = d + (i + n + 1) by omega]
    _ = .var name := by rw [← heq, ← Function.iterate_add_apply, hname]

/--
If resolving a kind stops half way, it goes round in a cycle.
-/
theorem exists_cycle (hname : s.resolve k = .var name) (hnext : s.kinds.lookup name = some next)
    : ∃ n, s.follow^[n] next = .var name := by
  unfold resolve at hname
  rw [go_eq_iterate] at hname
  generalize hN : s.kinds.length = N at hname
  -- All kinds on the way are known, because the last one is.
  have hknown : ∀ i ∈ Finset.range (N + 1), s.follow^[i] k ∈ (s.kinds.map fun b => GradeKind.var b.1).toFinset := by
    intro i hi
    have hresolved : ¬s.IsResolved (s.follow^[i] k) := by
      intro hresolved
      have hend : s.follow^[N] k = s.follow^[i] k := by
        obtain ⟨j, rfl⟩ := Nat.exists_eq_add_of_le (Nat.lt_succ_iff.mp (Finset.mem_range.mp hi))
        rw [Nat.add_comm, Function.iterate_add_apply, Function.iterate_fixed hresolved.follow_eq]
      rw [← hend, hname] at hresolved
      rw [hresolved name rfl] at hnext
      cases hnext
    simp only [IsResolved, not_forall] at hresolved
    obtain ⟨x, hx, hlookup⟩ := hresolved
    obtain ⟨kind, hkind⟩ := Option.ne_none_iff_exists'.mp hlookup
    rw [hx, List.mem_toFinset, List.mem_map]
    exact ⟨_, mem_of_lookup hkind, rfl⟩
  have hcard : (s.kinds.map fun b => GradeKind.var b.1).toFinset.card < (Finset.range (N + 1)).card := by
    have hle := (s.kinds.map fun b => GradeKind.var b.1).toFinset_card_le
    rw [List.length_map, hN] at hle
    rw [Finset.card_range]
    omega
  -- So two of them are the same, and from there on the kinds repeat.
  obtain ⟨i, hi, j, hj, hne, heq⟩ := Finset.exists_ne_map_eq_of_card_lt_of_maps_to hcard hknown
  rw [Finset.mem_range] at hi hj
  obtain hlt | hlt := Nat.lt_or_gt_of_ne hne
  . exact exists_cycle_of_repeat hname hnext (by omega) hlt heq
  . exact exists_cycle_of_repeat hname hnext (by omega) hlt heq.symm

/--
What is learned about a kind on a cycle takes the place of one link of the cycle, and the other links still make all
kinds on it equal.
-/
theorem Solves.under_of_iterate {n : Nat} (h : (s.learn name kind).Solves θ) (hn : s.follow^[n] k = .var name)
    : k.under θ = θ name := by
  induction n generalizing k with
  | zero =>
    change k = .var name at hn
    rw [hn]
    rfl
  | succ n ih =>
    rw [Function.iterate_succ_apply] at hn
    by_cases hk : k = .var name
    . rw [hk]
      rfl
    . have hfollow : (s.follow k).under θ = k.under θ := by
        cases k with
        | var x =>
          have hne : x ≠ name := fun heq => hk (congrArg _ heq)
          cases hlookup : s.kinds.lookup x with
          | none => simp [follow, hlookup]
          | some next =>
            rw [follow_of_lookup hlookup]
            exact (h x next (by rw [lookup_learn hne, hlookup])).symm
        | _ => rfl
      rw [← hfollow, ih hn]

theorem solves_learn_iff (hname : s.resolve k = .var name) (kind : GradeKind)
    : (s.learn name kind).Solves θ ↔ s.Solves θ ∧ θ name = kind.under θ := by
  have hlearned : (s.learn name kind).kinds.lookup name = some kind := List.lookup_cons_self
  constructor
  . intro h
    refine ⟨?_, h name kind hlearned⟩
    intro x next hnext
    by_cases hx : x = name
    . subst hx
      obtain ⟨n, hn⟩ := exists_cycle hname hnext
      exact (h.under_of_iterate hn).symm
    . exact h x next (by rw [lookup_learn hx, hnext])
  . rintro ⟨h, heq⟩ x next hnext
    by_cases hx : x = name
    . subst hx
      rw [hlearned] at hnext
      cases hnext
      exact heq
    . rw [lookup_learn hx] at hnext
      exact h x next hnext

theorem exists_solves (s : State) : ∃ θ, s.Solves θ := by
  refine ⟨fun x => s.settle (.var x), ?_⟩
  intro x next hnext
  have hunder : next.under (fun x => s.settle (.var x)) = s.settle next := by
    cases next with
    | var y => rfl
    | _ => exact (settle_of_ne_var (by rintro _ ⟨⟩) s).symm
  have hresolve : s.resolve next = s.follow (s.resolve (.var x)) := by
    unfold resolve
    rw [go_eq_iterate, go_eq_iterate, ← Function.iterate_succ_apply' s.follow, Function.iterate_succ_apply,
      follow_of_lookup hnext]
  change s.settle (.var x) = _
  rw [hunder]
  unfold settle
  rw [hresolve]
  by_cases hresolved : s.IsResolved (s.resolve (.var x))
  . rw [hresolved.follow_eq]
  . -- Both are on a cycle, and neither is determined.
    simp only [IsResolved, not_forall] at hresolved
    obtain ⟨name, hname, hlookup⟩ := hresolved
    obtain ⟨kind, hkind⟩ := Option.ne_none_iff_exists'.mp hlookup
    obtain ⟨n, hn⟩ := exists_cycle hname hkind
    rw [hname, follow_of_lookup hkind]
    cases kind with
    | var y | nat => rfl
    | _ =>
      rw [Function.iterate_fixed rfl] at hn
      cases hn

theorem exists_solves_ne (h : s.IsResolved (.var name)) (kind : GradeKind) : ∃ θ, s.Solves θ ∧ θ name ≠ kind := by
  have hother : ∃ other, other ≠ kind ∧ ∀ θ, other.under θ = other := by
    by_cases hkind : kind = .nat
    . exact ⟨.float, by simp [hkind], fun _ => rfl⟩
    . exact ⟨.nat, Ne.symm hkind, fun _ => rfl⟩
  obtain ⟨other, hne, hunder⟩ := hother
  obtain ⟨θ, hθ⟩ := (s.learn name other).exists_solves
  rw [solves_learn_iff h.resolve_eq, hunder] at hθ
  refine ⟨θ, hθ.1, ?_⟩
  rw [hθ.2]
  exact hne

theorem IsResolved.var_eq_of_forall_solves (hname : s.IsResolved (.var name)) (hl : s.IsResolved l)
    (h : ∀ θ, s.Solves θ → θ name = l.under θ) : .var name = l := by
  by_contra hne
  cases l with
  | var x =>
    obtain ⟨θ, hθ, hfloat⟩ := exists_solves_ne (hname.learn hne .float) .float
    rw [solves_learn_iff hl.resolve_eq] at hθ
    exact hfloat ((h θ hθ.1).trans hθ.2)
  | _ =>
    obtain ⟨θ, hθ, hother⟩ := exists_solves_ne hname _
    exact hother (h θ hθ)

/--
Kinds about which nothing more is known are the same if all solutions make them equal, since any kind can be learned for
those that are not determined.
-/
theorem IsResolved.eq_of_forall_solves (hk : s.IsResolved k) (hl : s.IsResolved l)
    (h : ∀ θ, s.Solves θ → k.under θ = l.under θ) : k = l := by
  cases k with
  | var name => exact hk.var_eq_of_forall_solves hl h
  | _ =>
    cases l with
    | var name => exact (hl.var_eq_of_forall_solves hk fun θ hθ => (h θ hθ).symm).symm
    | _ =>
      obtain ⟨θ, hθ⟩ := s.exists_solves
      exact h θ hθ

theorem Reaches.solves (h : s.Reaches s') : s'.Solves θ → s.Solves θ := by
  apply h.induct_kinds (motive := fun t => t.Solves θ → s.Solves θ) id
  . intro t t' hkinds ih hθ
    unfold Solves at hθ
    rw [hkinds] at hθ
    exact ih hθ
  . intro t name k l hk _ ih hθ
    exact ih ((solves_learn_iff hk _).mp hθ).1

theorem Reaches.resolve_eq (h : s.Reaches s') (heq : s.resolve k = s.resolve l) (hk : s'.IsResolved (s'.resolve k))
    (hl : s'.IsResolved (s'.resolve l)) : s'.resolve k = s'.resolve l := by
  apply hk.eq_of_forall_solves hl
  intro θ hθ
  have hθ₀ := h.solves hθ
  rw [hθ.under_resolve, hθ.under_resolve, ← hθ₀.under_resolve k, heq, hθ₀.under_resolve]

end State

namespace GradeKind

variable {s s' : State} {θ : String → GradeKind} {k l kind : GradeKind} {pos : Nat}

theorem solves_unify_iff (θ : String → GradeKind) (h : GradeKind.unify pos k l s = .ok kind s')
    : (s'.Solves θ ↔ s.Solves θ ∧ k.under θ = l.under θ) ∧ (s'.Solves θ → kind.under θ = k.under θ) := by
  have hk : s.Solves θ → k.under θ = (s.resolve k).under θ := fun hθ => (hθ.under_resolve k).symm
  have hl : s.Solves θ → l.under θ = (s.resolve l).under θ := fun hθ => (hθ.under_resolve l).symm
  cases unify_eq_ok h with
  | same heq =>
    refine ⟨⟨fun hθ => ⟨hθ, ?_⟩, And.left⟩, fun hθ => (hk hθ).symm⟩
    rw [hk hθ, hl hθ, heq]
  | left hvar _ =>
    rw [State.solves_learn_iff hvar]
    constructor
    . refine and_congr_right fun hθ => ?_
      rw [hk hθ, hl hθ, hvar]
      rfl
    . rintro ⟨hθ, heq⟩
      rw [hk hθ, hvar, ← heq]
      rfl
  | right _ hvar =>
    rw [State.solves_learn_iff hvar]
    constructor
    . refine and_congr_right fun hθ => ?_
      rw [hk hθ, hl hθ, hvar]
      exact eq_comm
    . rintro ⟨hθ, _⟩
      rw [hk hθ]

theorem under_of_ne_var (hkind : ∀ name, kind ≠ .var name) : kind.under θ = kind := by
  cases kind with
  | var name => exact absurd rfl (hkind name)
  | _ => rfl

theorem exists_unify (hθ : s.Solves θ) (heq : k.under θ = l.under θ) (pos : Nat)
    : ∃ kind s', GradeKind.unify pos k l s = .ok kind s' := by
  rw [← hθ.under_resolve k, ← hθ.under_resolve l] at heq
  have hunify := unifies_unify pos s k l
  generalize GradeKind.unify pos k l s = r at hunify ⊢
  cases hunify with
  | same | left | right => exact ⟨_, _, rfl⟩
  | clash hk hl hne =>
    -- Kinds that are determined are equal under every solution or under none.
    rw [under_of_ne_var hk, under_of_ne_var hl] at heq
    exact absurd heq hne

end GradeKind

namespace Grade

/--
A grade has a kind, if its variables have the kinds that a state says and undetermined kinds are replaced.
-/
def Fits (s : State) (θ : String → GradeKind) (kind : GradeKind) : Grade → Prop
  | .var x => ∃ v k, s.lookup? x = some v ∧ v.kind = .grade k ∧ k.under θ = kind
  | .nat _ => GradeKind.nat = kind
  | .float _ => GradeKind.float = kind
  | .level _ => GradeKind.level = kind
  | .zero k => k.under θ = kind
  | .one k => k.under θ = kind
  | .op _ g h => g.Fits s θ kind ∧ h.Fits s θ kind

variable {s s' : State} {θ : String → GradeKind} {k l kind : GradeKind} {pos : Nat} {g : Grade}

theorem Fits.unique (hk : g.Fits s θ k) (hl : g.Fits s θ l) : k = l := by
  induction g with
  | var x =>
    obtain ⟨v, k', hv, hk', rfl⟩ := hk
    obtain ⟨w, l', hw, hl', rfl⟩ := hl
    cases hv.symm.trans hw
    cases hk'.symm.trans hl'
    rfl
  | op o g h ihg _ => exact ihg hk.1 hl.1
  | _ => exact hk.symm.trans hl

theorem fits_congr (h : s'.typeVars = s.typeVars) : g.Fits s' θ kind ↔ g.Fits s θ kind := by
  induction g with
  | var x =>
    unfold Fits State.lookup?
    rw [h]
  | op o g h ihg ihh => exact and_congr ihg ihh
  | _ => exact Iff.rfl

theorem typeVars_inferKind (h : g.inferKind pos s = .ok kind s') : s'.typeVars = s.typeVars :=
  ((ensures_inferKind pos g rfl).1 kind s' h).2

-- Whatever is not an operation is looked up, and nothing is learned.
theorem solves_iff_of_fits (hfits : s.Solves θ → g.Fits s θ k)
    : (s.Solves θ ↔ s.Solves θ ∧ ∃ k, g.Fits s θ k) ∧ (s.Solves θ → g.Fits s θ k) :=
  ⟨⟨fun hθ => ⟨hθ, k, hfits hθ⟩, And.left⟩, hfits⟩

theorem solves_inferKind_iff (θ : String → GradeKind) (h : g.inferKind pos s = .ok kind s')
    : (s'.Solves θ ↔ s.Solves θ ∧ ∃ k, g.Fits s θ k) ∧ (s'.Solves θ → g.Fits s θ (kind.under θ)) := by
  induction g generalizing s s' kind with
  | var x =>
    unfold inferKind at h
    rw [bind_eq_ok] at h
    obtain ⟨v, _, hv, h⟩ := h
    obtain ⟨hlookup, rfl⟩ := lookup?_of_typeVar hv
    cases hk : v.kind with
    | grade k =>
      simp only [hk, resolve_eq_ok] at h
      obtain ⟨rfl, rfl⟩ := h
      exact solves_iff_of_fits fun hθ => ⟨v, k, hlookup, hk, (hθ.under_resolve k).symm⟩
    | _ => simp only [hk, fail_eq_ok] at h
  | nat n | float x | level l =>
    obtain ⟨rfl, rfl⟩ := pure_eq_ok.mp h
    exact solves_iff_of_fits fun _ => rfl
  | zero k | one k =>
    obtain ⟨rfl, rfl⟩ := resolve_eq_ok.mp h
    exact solves_iff_of_fits fun hθ => (hθ.under_resolve k).symm
  | op o a b iha ihb =>
    unfold inferKind at h
    simp only [bind_eq_ok] at h
    obtain ⟨ka, s₁, ha, kb, s₂, hb, h⟩ := h
    obtain ⟨hsolves₁, hfits₁⟩ := iha ha
    obtain ⟨hsolves₂, hfits₂⟩ := ihb hb
    obtain ⟨hsolves, hkind⟩ := GradeKind.solves_unify_iff θ h
    simp only [fits_congr (typeVars_inferKind ha)] at hsolves₂ hfits₂
    -- Both operands have the kind of the operation.
    have hboth : s'.Solves θ → s.Solves θ ∧ a.Fits s θ (kind.under θ) ∧ b.Fits s θ (kind.under θ) := by
      intro hθ
      obtain ⟨hθ₂, heq⟩ := hsolves.mp hθ
      have hθ₁ := (hsolves₂.mp hθ₂).1
      rw [hkind hθ]
      exact ⟨(hsolves₁.mp hθ₁).1, hfits₁ hθ₁, heq ▸ hfits₂ hθ₂⟩
    refine ⟨⟨fun hθ => ⟨(hboth hθ).1, _, (hboth hθ).2⟩, ?_⟩, fun hθ => (hboth hθ).2⟩
    rintro ⟨hθ, k, hak, hbk⟩
    have hθ₁ := hsolves₁.mpr ⟨hθ, k, hak⟩
    have hθ₂ := hsolves₂.mpr ⟨hθ₁, k, hbk⟩
    exact hsolves.mpr ⟨hθ₂, ((hfits₁ hθ₁).unique hak).trans (hbk.unique (hfits₂ hθ₂))⟩

theorem exists_inferKind (hθ : s.Solves θ) (hk : g.Fits s θ k) (pos : Nat)
    : ∃ kind s', g.inferKind pos s = .ok kind s' := by
  induction g generalizing s with
  | var x =>
    obtain ⟨v, k', hv, hk', _⟩ := hk
    refine ⟨s.resolve k', s, ?_⟩
    unfold inferKind
    rw [bind_of_ok (typeVar_of_lookup? hv), hk']
    exact resolve_eq_ok.mpr ⟨rfl, rfl⟩
  | op o a b iha ihb =>
    obtain ⟨hak, hbk⟩ := hk
    obtain ⟨ka, s₁, ha⟩ := iha hθ hak
    obtain ⟨hsolves₁, hfits₁⟩ := solves_inferKind_iff θ ha
    have hθ₁ := hsolves₁.mpr ⟨hθ, k, hak⟩
    have hbk' := (fits_congr (typeVars_inferKind ha)).mpr hbk
    obtain ⟨kb, s₂, hb⟩ := ihb hθ₁ hbk'
    obtain ⟨hsolves₂, hfits₂⟩ := solves_inferKind_iff θ hb
    have hθ₂ := hsolves₂.mpr ⟨hθ₁, k, hbk'⟩
    have heq := ((hfits₁ hθ₁).unique hak).trans (hbk'.unique (hfits₂ hθ₂))
    obtain ⟨kind, s', hunify⟩ := GradeKind.exists_unify hθ₂ heq pos
    refine ⟨kind, s', ?_⟩
    unfold inferKind
    rw [bind_of_ok ha, bind_of_ok hb]
    exact hunify
  | _ => exact ⟨_, _, rfl⟩

/--
Infer the kinds of grades one after the other.
-/
def inferKinds (pos : Nat) : List Grade → CheckM Unit
  | [] => return ()
  | g :: gs => do
    discard <| g.inferKind pos
    inferKinds pos gs

variable {gs : List Grade} {u : Unit}

theorem inferKinds_cons_eq_ok
    : inferKinds pos (g :: gs) s = .ok u s' ↔ ∃ k s₁, g.inferKind pos s = .ok k s₁ ∧ inferKinds pos gs s₁ = .ok u s' := by
  rw [inferKinds, bind_eq_ok]
  simp only [discard_eq_ok]
  constructor
  . rintro ⟨_, s₁, ⟨k, hg⟩, h⟩
    exact ⟨k, s₁, hg, h⟩
  . rintro ⟨k, s₁, hg, h⟩
    exact ⟨(), s₁, ⟨k, hg⟩, h⟩

theorem exists_inferKinds_iff
    : (∃ u s', inferKinds pos gs s = .ok u s') ↔ ∃ θ, s.Solves θ ∧ ∀ g ∈ gs, ∃ k, g.Fits s θ k := by
  induction gs generalizing s with
  | nil =>
    obtain ⟨θ, hθ⟩ := s.exists_solves
    exact ⟨fun _ => ⟨θ, hθ, nofun⟩, fun _ => ⟨(), s, rfl⟩⟩
  | cons g gs ih =>
    constructor
    . rintro ⟨u, s', h⟩
      obtain ⟨k, s₁, hg, h⟩ := inferKinds_cons_eq_ok.mp h
      obtain ⟨θ, hθ, hgs⟩ := ih.mp ⟨u, s', h⟩
      obtain ⟨hθ, hfits⟩ := (solves_inferKind_iff θ hg).1.mp hθ
      simp only [fits_congr (typeVars_inferKind hg)] at hgs
      exact ⟨θ, hθ, List.forall_mem_cons.mpr ⟨hfits, hgs⟩⟩
    . rintro ⟨θ, hθ, hfits⟩
      rw [List.forall_mem_cons] at hfits
      obtain ⟨⟨k, hk⟩, hgs⟩ := hfits
      obtain ⟨kind, s₁, hg⟩ := exists_inferKind hθ hk pos
      have hθ₁ := (solves_inferKind_iff θ hg).1.mpr ⟨hθ, k, hk⟩
      simp only [← fits_congr (typeVars_inferKind hg)] at hgs
      obtain ⟨u, s', h⟩ := ih.mpr ⟨θ, hθ₁, hgs⟩
      exact ⟨u, s', inferKinds_cons_eq_ok.mpr ⟨kind, s₁, hg, h⟩⟩

end Grade

end GradedModal
