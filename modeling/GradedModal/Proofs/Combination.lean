import Mathlib
import GradedModal.Proofs.KindSolutions
import GradedModal.Proofs.LeastUpperBound
import GradedModal.Proofs.Lockstep

/-!
This module says what the uses of two terms that are evaluated together are. They are the sum of both, variable by
variable, and they can be added in either order or in none. The two orders infer kinds one after the other in different
ways, but whether all of them can be inferred depends only on the solutions of what is known at the start.
-/

namespace GradedModal

open CheckM

open Float.Model (UnpackedFloat)

/-!
Types are compared as the numbers in them are, so that a type can differ from itself. It still does not matter which of
two types comes first.
-/

theorem compare_then_swap (e e' : Int) (m m' : Nat)
    : (compare e' e).then (compare m' m) = ((compare e e').then (compare m m')).swap := by
  rw [Ordering.swap_then, ← Std.OrientedCmp.eq_swap, ← Std.OrientedCmp.eq_swap]

theorem unpacked_compare_swap (x y : UnpackedFloat) : y.compare x = (x.compare y).map Ordering.swap := by
  cases x with
  | notANumber => cases y <;> rfl
  | infinity s =>
    cases y with
    | infinity s' => cases s <;> cases s' <;> rfl
    | _ => cases s <;> rfl
  | zero s =>
    cases y with
    | infinity s' | finite s' => cases s' <;> rfl
    | _ => rfl
  | finite s m e hm =>
    cases y with
    | infinity s' => cases s <;> cases s' <;> rfl
    | finite s' m' e' hm' =>
      have hswap := compare_then_swap e e' m m'
      cases s with
      | positive =>
        cases s' with
        | positive => exact congrArg some hswap
        | negative => rfl
      | negative =>
        cases s' with
        | positive => rfl
        | negative => exact congrArg (fun o => some (Ordering.swap o)) hswap
    | _ => cases s <;> rfl

theorem float_beq_comm (x y : Float) : (x == y) = (y == x) := by
  change (x.toModel.unpack.compare y.toModel.unpack == some .eq) =
    (y.toModel.unpack.compare x.toModel.unpack == some .eq)
  rw [unpacked_compare_swap y.toModel.unpack x.toModel.unpack]
  generalize y.toModel.unpack.compare x.toModel.unpack = o
  cases o with
  | none => rfl
  | some o => cases o <;> rfl

theorem Grade.beq_comm (g h : Grade) : (g == h) = (h == g) := by
  change instBEqGrade.beq g h = instBEqGrade.beq h g
  induction g generalizing h with
  | op o a b iha ihb =>
    cases h with
    | op o' a' b' =>
      simp only [instBEqGrade.beq]
      rw [BEq.comm, iha a', ihb b']
    | _ => rfl
  | float x =>
    cases h with
    | float y =>
      simp only [instBEqGrade.beq]
      exact float_beq_comm x y
    | _ => rfl
  | _ =>
    cases h with
    | var | nat | level | zero | one => simp only [instBEqGrade.beq, BEq.comm]
    | _ => rfl

theorem Ty.beq_comm (a b : Ty) : (a == b) = (b == a) := by
  change instBEqTy.beq a b = instBEqTy.beq b a
  induction a generalizing b with
  | const n | var n | index n =>
    cases b with
    | const | var | index => simp only [instBEqTy.beq, BEq.comm]
    | _ => rfl
  | arrow a a' iha iha' | app a a' iha iha' | pair a a' iha iha' =>
    cases b with
    | arrow b b' | app b b' | pair b b' => simp only [instBEqTy.beq, iha b, iha' b']
    | _ => rfl
  | op o a a' iha iha' =>
    cases b with
    | op o' b b' =>
      simp only [instBEqTy.beq]
      rw [BEq.comm, iha b, iha' b']
    | _ => rfl
  | box grade ty ih =>
    cases b with
    | box grade' ty' =>
      simp only [instBEqTy.beq]
      rw [Grade.beq_comm, ih ty']
    | _ => rfl
  | diamond effects ty ih =>
    cases b with
    | diamond effects' ty' =>
      simp only [instBEqTy.beq]
      rw [BEq.comm, ih ty']
    | _ => rfl

namespace Grade

variable {s s' : State} {pos : Nat} {gs hs : List Grade}

theorem inferKinds_append_eq_ok
    : inferKinds pos (gs ++ hs) s = .ok () s' ↔
        ∃ s₁, inferKinds pos gs s = .ok () s₁ ∧ inferKinds pos hs s₁ = .ok () s' := by
  induction gs generalizing s with
  | nil =>
    rw [List.nil_append, inferKinds]
    simp only [pure_eq_ok, true_and, exists_eq_left']
  | cons g gs ih =>
    rw [List.cons_append]
    simp only [inferKinds_cons_eq_ok, ih]
    constructor
    . rintro ⟨k, s₁, hg, s₂, hgs, hhs⟩
      exact ⟨s₂, ⟨k, s₁, hg, hgs⟩, hhs⟩
    . rintro ⟨s₂, ⟨k, s₁, hg, hgs⟩, hhs⟩
      exact ⟨k, s₁, hg, s₂, hgs, hhs⟩

/--
When the kinds of grades are inferred one after the other, the kind of a grade cannot be inferred any more.
-/
def FailsAt (pos : Nat) (s : State) (gs : List Grade) (g : Grade) : Prop :=
  ∃ before after s₁ e s₂, gs = before ++ g :: after ∧ inferKinds pos before s = .ok () s₁ ∧
    g.inferKind pos s₁ = .error e s₂

theorem exists_failsAt_iff : (∃ g, FailsAt pos s gs g) ↔ ¬∃ u s', inferKinds pos gs s = .ok u s' := by
  constructor
  . rintro ⟨g, before, after, s₁, e, s₂, rfl, hbefore, hg⟩ ⟨u, s', h⟩
    obtain ⟨s₁', hbefore', h⟩ := inferKinds_append_eq_ok.mp h
    cases hbefore.symm.trans hbefore'
    obtain ⟨k, s₂', hk, _⟩ := inferKinds_cons_eq_ok.mp h
    cases hg.symm.trans hk
  . intro h
    induction gs generalizing s with
    | nil => exact absurd ⟨(), s, rfl⟩ h
    | cons g gs ih =>
      cases hg : g.inferKind pos s with
      | error e s₂ => exact ⟨g, [], gs, s, e, s₂, rfl, rfl, hg⟩
      | ok k s₁ =>
        have hgs : ¬∃ u s', inferKinds pos gs s₁ = .ok u s' := by
          rintro ⟨u, s', hgs⟩
          exact h ⟨u, s', inferKinds_cons_eq_ok.mpr ⟨k, s₁, hg, hgs⟩⟩
        obtain ⟨g', before, after, s₂, e, s₃, rfl, hbefore, hg'⟩ := ih hgs
        exact ⟨g', g :: before, after, s₂, e, s₃, rfl, inferKinds_cons_eq_ok.mpr ⟨k, s₁, hg, hbefore⟩, hg'⟩

theorem FailsAt.mem {g : Grade} (h : FailsAt pos s gs g) : g ∈ gs := by
  obtain ⟨before, after, _, _, _, rfl, _⟩ := h
  simp

/--
Whenever two uses have values, a grade has their sum as its value, and it has no value otherwise.
-/
def Totals (g : Grade) (l r : Assumption) : Prop :=
  ∀ kind : GradeKind, kind.IsDiscrete → ∀ (a : Assignment) (w : Value), g.evaluate kind a = .ok w ↔
    ∃ v v', Assumption.evaluate kind a (some l) = .ok v ∧ Assumption.evaluate kind a (some r) = .ok v' ∧
      Op.plus.apply kind v v' = .ok w

end Grade

theorem Level.plus_comm (l l' : Level) : l.plus l' = l'.plus l := by
  cases l <;> cases l' <;> rfl

theorem Op.plus_apply_comm {kind : GradeKind} (hkind : kind.IsDiscrete) (v w z : Value)
    : Op.plus.apply kind v w = .ok z ↔ Op.plus.apply kind w v = .ok z := by
  obtain rfl | rfl := hkind
  . cases v with
    | nat m =>
      cases w with
      | nat n =>
        change Except.ok (Value.nat (min (m + n) maxWord)) = .ok z ↔ Except.ok (Value.nat (min (n + m) maxWord)) = .ok z
        rw [Nat.add_comm]
      | _ => exact iff_of_false nofun nofun
    | _ => cases w <;> exact iff_of_false nofun nofun
  . cases v with
    | level l =>
      cases w with
      | level l' =>
        change Except.ok (Value.level (l.plus l')) = .ok z ↔ Except.ok (Value.level (l'.plus l)) = .ok z
        rw [Level.plus_comm]
      | _ => exact iff_of_false nofun nofun
    | _ => cases w <;> exact iff_of_false nofun nofun

namespace Assumption

variable {a b : Assumption} {g : Grade}

/--
Two uses of a variable that cannot be added, whatever is known about kinds.
-/
def Clashes (a b : Assumption) : Prop :=
  (a.isLinear = true ∧ b.isLinear = true) ∨ (a.ty != b.ty) = true

/--
The grade of the one of two uses that has a grade, if the other one is linear.
-/
def mixed? : Assumption → Assumption → Option Grade
  | .linear _, .graded _ g => some g
  | .graded _ g, .linear _ => some g
  | _, _ => none

theorem clashes_comm : a.Clashes b ↔ b.Clashes a := by
  unfold Clashes
  rw [and_comm, bne, bne, Ty.beq_comm]

theorem mixed?_comm (a b : Assumption) : a.mixed? b = b.mixed? a := by
  cases a <;> cases b <;> rfl

/--
What two terms together use of a variable, given what each of them uses.
-/
inductive SumsTo : Option Assumption → Option Assumption → Option Assumption → Prop where
  | right (r : Option Assumption) : SumsTo none r r
  | left (l : Option Assumption) : SumsTo l none l
  | shared {l r : Assumption} {ty : Ty} {g : Grade} :
    ty = l.ty ∨ ty = r.ty → g.Totals l r → SumsTo (some l) (some r) (some (.graded ty g))

theorem SumsTo.eq_right {r t : Option Assumption} (h : SumsTo none r t) : t = r := by
  cases h with
  | right => rfl
  | left => rfl

end Assumption

namespace Grade.Totals

variable {g : Grade} {l r : Assumption}

theorem symm (h : g.Totals l r) : g.Totals r l := by
  intro kind hkind a w
  rw [h kind hkind a w]
  constructor
  . rintro ⟨v, v', hv, hv', hw⟩
    exact ⟨v', v, hv', hv, (Op.plus_apply_comm hkind v v' w).mp hw⟩
  . rintro ⟨v', v, hv', hv, hw⟩
    exact ⟨v, v', hv, hv', (Op.plus_apply_comm hkind v v' w).mpr hw⟩

theorem of_op {h : Grade} (hg : ∀ kind a, Assumption.evaluate kind a (some l) = g.evaluate kind a)
    (hh : ∀ kind a, Assumption.evaluate kind a (some r) = h.evaluate kind a) : (Grade.op .plus g h).Totals l r := by
  intro kind _ a w
  rw [hg, hh]
  change (g.evaluate kind a >>= fun v => h.evaluate kind a >>= fun v' => Op.plus.apply kind v v') = .ok w ↔ _
  cases g.evaluate kind a with
  | error e => exact iff_of_false nofun (by rintro ⟨_, _, ⟨⟩, _⟩)
  | ok v =>
    cases h.evaluate kind a with
    | error e => exact iff_of_false nofun (by rintro ⟨_, _, _, ⟨⟩, _⟩)
    | ok v' =>
      constructor
      . intro hw
        exact ⟨v, v', rfl, rfl, hw⟩
      . rintro ⟨_, _, ⟨⟩, ⟨⟩, hw⟩
        exact hw

end Grade.Totals

namespace Context

variable {pos : Nat} {c left right u : Context} {x : String} {a known sum : Assumption} {s s' : State}

theorem sumsTo_addUses (h : addUses pos x known a s = .ok sum s')
    : Assumption.SumsTo (some a) (some known) (some sum) := by
  cases known with
  | linear ty =>
    cases a with
    | linear ty' => exact (fail_eq_ok.mp h).elim
    | graded ty' g =>
      unfold addUses at h
      simp only [bind_eq_ok, pure_eq_ok] at h
      obtain ⟨k, _, _, rfl, rfl⟩ := h
      exact .shared (.inl rfl) (.of_op (fun _ _ => rfl) fun _ _ => rfl)
  | graded ty g =>
    cases a with
    | linear ty' =>
      unfold addUses at h
      simp only [bind_eq_ok, pure_eq_ok] at h
      obtain ⟨k, _, _, rfl, rfl⟩ := h
      exact .shared (.inr rfl) (Grade.Totals.of_op (fun _ _ => rfl) fun _ _ => rfl).symm
    | graded ty' g' =>
      obtain ⟨rfl, rfl⟩ := pure_eq_ok.mp h
      exact .shared (.inr rfl) (Grade.Totals.of_op (fun _ _ => rfl) fun _ _ => rfl).symm

-- Only the kind of a grade next to a linear use is looked at.
theorem exists_addUses_iff
    : (∃ sum, addUses pos x known a s = .ok sum s') ↔
        ¬(a.isLinear = true ∧ known.isLinear = true) ∧ Grade.inferKinds pos (a.mixed? known).toList s = .ok () s' := by
  -- It does not matter which of the two uses is linear.
  have hmixed : ∀ (ty ty' : Ty) (g : Grade), (∃ sum, addUses pos x (.linear ty') (.graded ty g) s = .ok sum s') ↔
      Grade.inferKinds pos [g] s = .ok () s' := by
    intro ty ty' g
    simp only [addUses, bind_eq_ok, Grade.inferKinds_cons_eq_ok]
    constructor
    . rintro ⟨_, k, s₁, hk, h⟩
      obtain ⟨rfl, rfl⟩ := pure_eq_ok.mp h
      exact ⟨k, _, hk, rfl⟩
    . rintro ⟨k, s₁, hk, h⟩
      obtain ⟨_, rfl⟩ := pure_eq_ok.mp h
      exact ⟨_, k, _, hk, rfl⟩
  cases known with
  | linear ty =>
    cases a with
    | linear ty' => exact iff_of_false (by rintro ⟨_, ⟨⟩⟩) (fun h => h.1 ⟨rfl, rfl⟩)
    | graded ty' g => exact (hmixed ty' ty g).trans (by simp [Assumption.isLinear, Assumption.mixed?])
  | graded ty g =>
    cases a with
    | linear ty' => exact (hmixed ty ty' g).trans (by simp [Assumption.isLinear, Assumption.mixed?])
    | graded ty' g' =>
      simp only [addUses, pure_eq_ok, Assumption.isLinear, Assumption.mixed?, Option.toList_none, Grade.inferKinds]
      simp

theorem exists_extend_iff
    : (∃ u, extend pos c x a s = .ok u s') ↔
        (∀ known, c.lookup? x = some known → ¬a.Clashes known) ∧
          Grade.inferKinds pos ((c.lookup? x).bind a.mixed?).toList s = .ok () s' := by
  unfold extend
  cases hx : c.lookup? x with
  | none => simp [pure_eq_ok, Grade.inferKinds]
  | some known =>
    simp only [ite_fail_bind_eq_ok, bind_eq_ok, pure_eq_ok, Option.some.injEq, forall_eq', Option.bind_some]
    have hty : (known.ty != a.ty) = (a.ty != known.ty) := by
      rw [bne, bne, Ty.beq_comm]
    rw [hty]
    constructor
    . rintro ⟨_, hty, sum, _, hsum, _, rfl⟩
      obtain ⟨hlinear, hkinds⟩ := exists_addUses_iff.mp ⟨sum, hsum⟩
      exact ⟨not_or.mpr ⟨hlinear, hty⟩, hkinds⟩
    . rintro ⟨hclash, hkinds⟩
      obtain ⟨hlinear, hty⟩ := not_or.mp hclash
      obtain ⟨sum, hsum⟩ := exists_addUses_iff.mpr ⟨hlinear, hkinds⟩
      exact ⟨_, hty, sum, s', hsum, rfl, rfl⟩

theorem sumsTo_extend (h : extend pos c x a s = .ok u s')
    : Assumption.SumsTo (some a) (c.lookup? x) (u.lookup? x) := by
  obtain ⟨hnone, hu⟩ | ⟨known, sum, s₁, hknown, hsum, hu⟩ := lookup?_of_extend h
  . rw [hnone, hu]
    exact .left _
  . rw [hknown, hu]
    exact sumsTo_addUses hsum

theorem sumsTo_combine (hleft : left.names.Nodup) (h : combine pos left right s = .ok u s') (x : String)
    : Assumption.SumsTo (left.lookup? x) (right.lookup? x) (u.lookup? x) := by
  obtain ⟨bindings⟩ := left
  unfold combine at h
  change (bindings.map (·.1)).Nodup at hleft
  change Assumption.SumsTo (bindings.lookup x) (right.lookup? x) (u.lookup? x)
  induction bindings generalizing right s with
  | nil =>
    rw [List.foldlM_nil, pure_eq_ok] at h
    rw [h.1]
    exact .right _
  | cons b bindings ih =>
    obtain ⟨y, a⟩ := b
    rw [List.map_cons, List.nodup_cons] at hleft
    rw [List.foldlM_cons, bind_eq_ok] at h
    obtain ⟨c, s₁, hextend, h⟩ := h
    have hrest := ih h hleft.2
    by_cases hxy : x = y
    . subst hxy
      -- The variable is not used any more, so that nothing is added to its sum.
      have hnone : bindings.lookup x = none := lookup?_eq_none_iff.mpr hleft.1
      rw [hnone] at hrest
      rw [List.lookup_cons_self, hrest.eq_right]
      exact sumsTo_extend hextend
    . have hbeq : (x == y) = false := by
        simp [hxy]
      rw [lookup?_extend_of_ne hxy hextend] at hrest
      rw [List.lookup_cons, hbeq]
      exact hrest

/--
The grades of variables that are used linearly on one side and with a grade on the other, in the order in which their
kinds are inferred.
-/
def mixedGrades (left right : Context) : List Grade :=
  left.bindings.flatMap fun b => ((right.lookup? b.1).bind b.2.mixed?).toList

-- By induction on the uses that are added. The names on the left differ, so that no use meets an earlier one.
theorem exists_combine_eq_ok_iff (hleft : left.names.Nodup)
    : (∃ u, combine pos left right s = .ok u s') ↔
        (∀ b ∈ left.bindings, ∀ r, right.lookup? b.1 = some r → ¬b.2.Clashes r) ∧
          Grade.inferKinds pos (mixedGrades left right) s = .ok () s' := by
  obtain ⟨bindings⟩ := left
  unfold combine mixedGrades
  change (bindings.map (·.1)).Nodup at hleft
  dsimp only
  induction bindings generalizing right s with
  | nil =>
    simp only [List.foldlM_nil, pure_eq_ok, List.flatMap_nil, Grade.inferKinds]
    simp
  | cons b bindings ih =>
    rw [List.map_cons, List.nodup_cons] at hleft
    -- What is used of the other names is still what the right says.
    have hlater : ∀ {c s₁}, extend pos right b.1 b.2 s = .ok c s₁ → ∀ b' ∈ bindings,
        c.lookup? b'.1 = right.lookup? b'.1 := by
      intro c s₁ hc b' hb'
      apply lookup?_extend_of_ne _ hc
      rintro heq
      exact hleft.1 (heq ▸ List.mem_map_of_mem hb')
    have hclash : ∀ {c s₁}, extend pos right b.1 b.2 s = .ok c s₁ →
        ((∀ b' ∈ bindings, ∀ r, c.lookup? b'.1 = some r → ¬b'.2.Clashes r) ↔
          ∀ b' ∈ bindings, ∀ r, right.lookup? b'.1 = some r → ¬b'.2.Clashes r) := by
      intro c s₁ hc
      exact forall₂_congr fun b' hb' => by rw [hlater hc b' hb']
    have hmixed : ∀ {c s₁}, extend pos right b.1 b.2 s = .ok c s₁ →
        bindings.flatMap (fun b' => ((c.lookup? b'.1).bind b'.2.mixed?).toList) =
          bindings.flatMap fun b' => ((right.lookup? b'.1).bind b'.2.mixed?).toList := by
      intro c s₁ hc
      exact List.flatMap_congr fun b' hb' => by rw [hlater hc b' hb']
    simp only [List.foldlM_cons, bind_eq_ok, List.forall_mem_cons, List.flatMap_cons, Grade.inferKinds_append_eq_ok]
    constructor
    . rintro ⟨u, c, s₁, hc, h⟩
      obtain ⟨hb, hkinds⟩ := exists_extend_iff.mp ⟨c, hc⟩
      obtain ⟨hrest, hkinds'⟩ := (ih hleft.2).mp ⟨u, h⟩
      rw [hclash hc] at hrest
      rw [hmixed hc] at hkinds'
      exact ⟨⟨hb, hrest⟩, s₁, hkinds, hkinds'⟩
    . rintro ⟨⟨hb, hrest⟩, s₁, hkinds, hkinds'⟩
      obtain ⟨c, hc⟩ := exists_extend_iff.mpr ⟨hb, hkinds⟩
      rw [← hclash hc] at hrest
      rw [← hmixed hc] at hkinds'
      obtain ⟨u, h⟩ := (ih hleft.2).mpr ⟨hrest, hkinds'⟩
      exact ⟨u, c, s₁, hc, h⟩

theorem mem_mixedGrades (hleft : left.names.Nodup) {g : Grade}
    : g ∈ mixedGrades left right ↔
        ∃ x l r, left.lookup? x = some l ∧ right.lookup? x = some r ∧ l.mixed? r = some g := by
  simp only [mixedGrades, List.mem_flatMap, Option.mem_toList, Option.bind_eq_some_iff]
  constructor
  . rintro ⟨b, hb, r, hr, hg⟩
    exact ⟨b.1, b.2, r, lookup?_of_mem hleft hb, hr, hg⟩
  . rintro ⟨x, l, r, hl, hr, hg⟩
    exact ⟨(x, l), mem_of_lookup hl, r, hr, hg⟩

theorem exists_combine_iff (hleft : left.names.Nodup)
    : (∃ u s', combine pos left right s = .ok u s') ↔
        (∀ x l r, left.lookup? x = some l → right.lookup? x = some r → ¬l.Clashes r) ∧
          ∃ u s', Grade.inferKinds pos (mixedGrades left right) s = .ok u s' := by
  constructor
  . rintro ⟨u, s', h⟩
    obtain ⟨hclash, hkinds⟩ := (exists_combine_eq_ok_iff hleft).mp ⟨u, h⟩
    exact ⟨fun x l r hl hr => hclash (x, l) (mem_of_lookup hl) r hr, (), s', hkinds⟩
  . rintro ⟨hclash, u, s', hkinds⟩
    have hbindings : ∀ b ∈ left.bindings, ∀ r, right.lookup? b.1 = some r → ¬b.2.Clashes r :=
      fun b hb r hr => hclash b.1 b.2 r (lookup?_of_mem hleft hb) hr
    obtain ⟨u, h⟩ := (exists_combine_eq_ok_iff hleft).mpr ⟨hbindings, hkinds⟩
    exact ⟨u, s', h⟩

theorem exists_inferKinds_mixedGrades_iff (hleft : left.names.Nodup)
    : (∃ u s', Grade.inferKinds pos (mixedGrades left right) s = .ok u s') ↔
        ∃ θ, s.Solves θ ∧ ∀ x l r g, left.lookup? x = some l → right.lookup? x = some r → l.mixed? r = some g →
          ∃ k, g.Fits s θ k := by
  simp only [Grade.exists_inferKinds_iff, mem_mixedGrades hleft]
  refine exists_congr fun θ => and_congr_right fun _ => ?_
  constructor
  . intro h x l r g hl hr hg
    exact h g ⟨x, l, r, hl, hr, hg⟩
  . rintro h g ⟨x, l, r, hl, hr, hg⟩
    exact h x l r g hl hr hg

theorem exists_combine_symm (hleft : left.names.Nodup) (hright : right.names.Nodup)
    (h : ∃ u s', combine pos left right s = .ok u s') : ∃ u s', combine pos right left s = .ok u s' := by
  rw [exists_combine_iff hleft, exists_inferKinds_mixedGrades_iff hleft] at h
  rw [exists_combine_iff hright, exists_inferKinds_mixedGrades_iff hright]
  obtain ⟨hclash, θ, hθ, hfits⟩ := h
  refine ⟨?_, θ, hθ, ?_⟩
  . intro x r l hr hl
    rw [Assumption.clashes_comm]
    exact hclash x l r hl hr
  . intro x r l g hr hl
    rw [Assumption.mixed?_comm]
    exact hfits x l r g hl hr

theorem fails_combine_iff (hleft : left.names.Nodup)
    : Fails (combine pos left right) s ↔
        ∃ x l r, left.lookup? x = some l ∧ right.lookup? x = some r ∧
          (l.Clashes r ∨ ∃ g, l.mixed? r = some g ∧ Grade.FailsAt pos s (mixedGrades left right) g) := by
  rw [fails_iff, exists_combine_iff hleft, not_and_or, ← Grade.exists_failsAt_iff]
  constructor
  . rintro (hclash | ⟨g, hg⟩)
    . push Not at hclash
      obtain ⟨x, l, r, hl, hr, hclash⟩ := hclash
      exact ⟨x, l, r, hl, hr, .inl hclash⟩
    . obtain ⟨x, l, r, hl, hr, hmixed⟩ := (mem_mixedGrades hleft).mp hg.mem
      exact ⟨x, l, r, hl, hr, .inr ⟨g, hmixed, hg⟩⟩
  . rintro ⟨x, l, r, hl, hr, hclash | ⟨g, _, hg⟩⟩
    . exact .inl fun h => h x l r hl hr hclash
    . exact .inr ⟨g, hg⟩

-- Learning kinds on the way never helps: a grade without a kind at the start does not get one.
theorem fails_combine_of_inferKind {l r : Assumption} {g : Grade} (hleft : left.names.Nodup)
    (hl : left.lookup? x = some l) (hr : right.lookup? x = some r) (hmixed : l.mixed? r = some g)
    (hg : Fails (g.inferKind pos) s) : Fails (combine pos left right) s := by
  rw [fails_iff, exists_combine_iff hleft, exists_inferKinds_mixedGrades_iff hleft]
  rintro ⟨_, θ, hθ, hfits⟩
  obtain ⟨k, hk⟩ := hfits x l r g hl hr hmixed
  exact fails_iff.mp hg (Grade.exists_inferKind hθ hk pos)

/--
The sum of two contexts binds the variables of both, each to the sum of its uses. Whether there is a sum does not depend
on which of the two comes first. There is none exactly if a variable is used linearly in both or at different types, or
if a linear use meets a grade whose kind cannot be inferred. The kinds inferred before are known then, but a grade whose
kind cannot be inferred at the start stays one.
-/
theorem combine_pointwise_sum (hleft : left.names.Nodup) (hright : right.names.Nodup) (pos : Nat) (s : State)
    : ((∃ u s', combine pos left right s = .ok u s') ↔ ∃ u s', combine pos right left s = .ok u s') ∧
      (∀ u s', combine pos left right s = .ok u s' →
        u.names.Nodup ∧ (∀ x, x ∈ u.names ↔ x ∈ left.names ∨ x ∈ right.names) ∧
          ∀ x, Assumption.SumsTo (left.lookup? x) (right.lookup? x) (u.lookup? x)) ∧
      (Fails (combine pos left right) s ↔
        ∃ x l r, left.lookup? x = some l ∧ right.lookup? x = some r ∧
          (l.Clashes r ∨ ∃ g, l.mixed? r = some g ∧ Grade.FailsAt pos s (mixedGrades left right) g)) ∧
      (∀ x l r g, left.lookup? x = some l → right.lookup? x = some r → l.mixed? r = some g →
        Fails (g.inferKind pos) s → Fails (combine pos left right) s) := by
  refine ⟨⟨exists_combine_symm hleft hright, exists_combine_symm hright hleft⟩, ?_, fails_combine_iff hleft, ?_⟩
  . intro u s' h
    exact ⟨nodup_names_combine hright h, fun x => mem_names_combine h, sumsTo_combine hleft h⟩
  . intro x l r g hl hr hmixed hg
    exact fails_combine_of_inferKind hleft hl hr hmixed hg

end Context

/-- The state in which the kind of a variable is not determined. -/
def State.withUndetermined (name : String) : State :=
  { start with typeVars := [⟨name, .grade (.var "k"), .universal⟩] }

namespace Context

/-- What uses two variables linearly, and a third one twice. -/
def partlyLinear : Context :=
  ⟨[("x", .linear (.const "Int")), ("y", .graded (.const "Int") (.nat 2)), ("z", .linear (.const "Int"))]⟩

/-- What uses variables as often as a variable says. -/
def variablyGraded : Context :=
  ⟨[("y", .graded (.const "Int") (.var "n")), ("x", .graded (.const "Int") (.op .plus (.var "n") (.nat 1)))]⟩

theorem combine_pointwise_sum_variablyGraded
    : (∃ u s', combine 0 partlyLinear variablyGraded (.withUndetermined "n") = .ok u s' ∧
        Assumption.SumsTo (partlyLinear.lookup? "x") (variablyGraded.lookup? "x") (u.lookup? "x")) ∧
      (∃ u s', combine 0 variablyGraded partlyLinear (.withUndetermined "n") = .ok u s') ∧
      Fails (combine 0 partlyLinear partlyLinear) (.withUndetermined "n") := by
  have hleft : partlyLinear.names.Nodup := by
    decide
  have hright : variablyGraded.names.Nodup := by
    decide
  obtain ⟨u, s', hrun, _⟩ : ∃ u s', combine 0 partlyLinear variablyGraded (.withUndetermined "n") = .ok u s' ∧ _ :=
    exists_of_yields (p := fun _ _ => true) (by cbv)
  obtain ⟨hsymm, hsum, _⟩ := combine_pointwise_sum hleft hright 0 (.withUndetermined "n")
  obtain ⟨_, _, hfails, _⟩ := combine_pointwise_sum hleft hleft 0 (.withUndetermined "n")
  refine ⟨⟨u, s', hrun, (hsum u s' hrun).2.2 "x"⟩, hsymm.mp ⟨u, s', hrun⟩, hfails.mpr ?_⟩
  exact ⟨"x", _, _, rfl, rfl, .inl (.inl ⟨rfl, rfl⟩)⟩

end Context

end GradedModal
