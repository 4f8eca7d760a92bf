import Mathlib
import GradedModal.Proofs.Independence
import GradedModal.Proofs.SmtLib

/-!
This module says when the names of variables leave a script alone. Whatever is read has lexemes for atoms, so a script
is read as the commands of its query exactly if bars make a symbol of each name. A name that ends its own symbol can
add commands.
-/

namespace GradedModal
namespace SmtLib

open SExpr (isParen)

/-! What is read is made of lexemes. -/

def IsToken (t : String) : Prop :=
  t = "(" ∨ t = ")" ∨ IsLexeme t

/--
What the reader of lexemes holds is the beginning of one.
-/
def Place.IsSound : Place → Prop
  | .word done => done ≠ [] ∧ ∀ c ∈ done, isWordChar c = true
  | .quoted done => ∀ c ∈ done, isQuotable c = true
  | _ => True

theorem isToken_paren {c : Char} (h : isParen c = true) : IsToken (String.singleton c) := by
  unfold SExpr.isParen at h
  simp only [Bool.or_eq_true, decide_eq_true_eq] at h
  rcases h with rfl | rfl
  . exact .inl rfl
  . exact .inr (.inl rfl)

theorem isToken_word {done : List Char} (h : (Place.word done).IsSound) : IsToken (String.ofList done.reverse) := by
  obtain ⟨hne, hdone⟩ := h
  refine .inr (.inr (.word ⟨?_, ?_⟩))
  . simpa using hne
  . simpa using hdone

theorem isToken_quoted {done : List Char} (h : (Place.quoted done).IsSound)
    : IsToken ("|" ++ String.ofList done.reverse ++ "|") := by
  refine .inr (.inr (.quoted ?_))
  intro c hc
  rw [String.toList_ofList, List.mem_reverse] at hc
  exact h c hc

theorem isToken_of_map_cons {rest : Option (List String)} {t : String} {ts : List String} (ht : IsToken t)
    (hrest : ∀ {us}, rest = some us → ∀ u ∈ us, IsToken u) (h : rest.map (t :: ·) = some ts)
    : ∀ u ∈ ts, IsToken u := by
  obtain ⟨us, hus, rfl⟩ := Option.map_eq_some_iff.mp h
  rw [List.forall_mem_cons]
  exact ⟨ht, hrest hus⟩

theorem isToken_of_lexemes {place : Place} {cs : List Char} {ts : List String} (hplace : place.IsSound)
    (h : lexemes place cs = some ts) : ∀ t ∈ ts, IsToken t := by
  fun_induction lexemes place cs generalizing ts with
  | case1 | case2 =>
    cases h
    exact List.forall_mem_nil _
  | case3 done =>
    cases h
    rw [List.forall_mem_singleton]
    exact isToken_word hplace
  | case4 => cases h
  | case5 c cs hc ih => exact ih ⟨List.cons_ne_nil _ _, by simpa using hc⟩ h
  | case6 cs _ ih => exact ih (List.forall_mem_nil _) h
  | case7 c cs _ _ _ ih | case9 cs _ _ _ _ ih | case19 c cs _ ih | case20 c cs _ ih => exact ih trivial h
  | case8 c cs _ _ _ hc ih => exact isToken_of_map_cons (isToken_paren hc) (ih trivial) h
  | case10 => cases h
  | case11 done c cs hc ih =>
    refine ih ⟨List.cons_ne_nil _ _, ?_⟩ h
    rw [List.forall_mem_cons]
    exact ⟨hc, hplace.2⟩
  | case12 done c cs _ _ ih | case14 done cs _ _ _ ih => exact isToken_of_map_cons (isToken_word hplace) (ih trivial) h
  | case13 done c cs _ _ hc ih =>
    obtain ⟨us, hus, rfl⟩ := Option.map_eq_some_iff.mp h
    rw [List.forall_mem_cons, List.forall_mem_cons]
    exact ⟨isToken_word hplace, isToken_paren hc, ih trivial hus⟩
  | case15 => cases h
  | case16 done cs ih => exact isToken_of_map_cons (isToken_quoted hplace) (ih trivial) h
  | case17 done c cs _ hc ih => exact ih (List.forall_mem_cons.mpr ⟨hc, hplace⟩) h
  | case18 => cases h

theorem isLexical_of_expressions {items : List SExpr} {outer : List (List SExpr)} {ts : List String} {es : List SExpr}
    (hts : ∀ t ∈ ts, IsToken t) (hitems : ∀ e ∈ items, IsLexical e) (houter : ∀ l ∈ outer, ∀ e ∈ l, IsLexical e)
    (h : expressions items outer ts = some es) : ∀ e ∈ es, IsLexical e := by
  fun_induction expressions items outer ts with
  | case1 =>
    cases h
    simpa using hitems
  | case2 => cases h
  | case3 items outer ts ih =>
    rw [List.forall_mem_cons] at hts
    refine ih hts.2 (List.forall_mem_nil _) ?_ h
    rw [List.forall_mem_cons]
    exact ⟨hitems, houter⟩
  | case4 => cases h
  | case5 items ts above outer _ ih =>
    rw [List.forall_mem_cons] at hts houter
    refine ih hts.2 ?_ houter.2 h
    rw [List.forall_mem_cons]
    exact ⟨isLexical_list (by simpa using hitems), houter.1⟩
  | case6 items outer t ts hopen hclose ih =>
    rw [List.forall_mem_cons] at hts
    refine ih hts.2 ?_ houter h
    rw [List.forall_mem_cons]
    refine ⟨?_, hitems⟩
    unfold IsLexical
    exact (hts.1.resolve_left hopen).resolve_left hclose

theorem isLexical_of_read {text : String} {es : List SExpr} (h : read text = some es) : ∀ e ∈ es, IsLexical e := by
  obtain ⟨ts, hts, hes⟩ := Option.bind_eq_some_iff.mp h
  have hsound : Place.between.IsSound := trivial
  exact isLexical_of_expressions (isToken_of_lexemes hsound hts) (List.forall_mem_nil _) (List.forall_mem_nil _) hes

/-! A script of lexemes has names that bars make symbols of. -/

theorem isLexical_symbol_iff {x : String} : IsLexical (Script.symbol x) ↔ IsQuotableName x := by
  refine ⟨?_, isLexical_symbol⟩
  unfold Script.symbol IsLexical
  intro h
  generalize ht : "|" ++ x ++ "|" = t at h
  cases h with
  | word h =>
    have hbar := h.2 '|' (by simp [← ht])
    exact absurd hbar (by decide)
  | quoted h =>
    have heq := congrArg symbol? ht
    rw [symbol?_quoted, symbol?_quoted, Option.some_inj] at heq
    rwa [heq]

theorem forall_isLexical_of_list {es : List SExpr} (h : IsLexical (.list es)) : ∀ e ∈ es, IsLexical e := by
  unfold IsLexical at h
  exact areLexical_iff.mp h

theorem forall_isLexical_of_app {f : String} {args : List SExpr} (h : IsLexical (SExpr.app f args))
    : ∀ e ∈ args, IsLexical e :=
  fun e he => forall_isLexical_of_list h e (List.mem_cons_of_mem _ he)

theorem isLexical_of_operation {kind : GradeKind} {o : Op} {a b : SExpr} (h : IsLexical (Script.operation kind o a b))
    : IsLexical a ∧ IsLexical b := by
  have hlarger : ∀ {a b}, IsLexical (Script.larger a b) → IsLexical a ∧ IsLexical b := by
    intro a b h
    have hargs := forall_isLexical_of_app h
    exact ⟨hargs a (by simp), hargs b (by simp)⟩
  have hbinary : ∀ {f a b}, IsLexical (SExpr.app f [a, b]) → IsLexical a ∧ IsLexical b := by
    intro f a b h
    have hargs := forall_isLexical_of_app h
    exact ⟨hargs a (by simp), hargs b (by simp)⟩
  unfold Script.operation at h
  cases o with
  | plus =>
    dsimp only at h
    split at h
    . exact hlarger h
    . exact hbinary h
  | times =>
    dsimp only at h
    split at h
    . exact hlarger (forall_isLexical_of_app h _ (by simp))
    . exact hbinary h
  | join => exact hlarger h
  | meet =>
    have hargs := forall_isLexical_of_app h
    exact ⟨hargs a (by simp), hargs b (by simp)⟩

theorem isQuotableName_of_term {kind : GradeKind} {g : Grade} (h : IsLexical (Script.term kind g))
    : ∀ x ∈ g.occurrences, IsQuotableName x := by
  induction g with
  | var x =>
    rw [Grade.occurrences, List.forall_mem_singleton]
    exact isLexical_symbol_iff.mp h
  | op o g h' ihg ihh =>
    obtain ⟨hg, hh⟩ := isLexical_of_operation h
    rw [Grade.occurrences, List.forall_mem_append]
    exact ⟨ihg hg, ihh hh⟩
  | _ => exact List.forall_mem_nil _

theorem isQuotableName_of_binders {vars : List Bound} (h : IsLexical (Script.binders vars))
    : ∀ x ∈ vars.map (·.1), IsQuotableName x := by
  have hpairs := forall_isLexical_of_list h
  rw [List.forall_mem_map] at hpairs ⊢
  intro b hb
  have hpair := forall_isLexical_of_list (hpairs b hb)
  exact isLexical_symbol_iff.mp (hpair _ List.mem_cons_self)

mutual

theorem isQuotableName_of_formula (f : Formula) (h : IsLexical (Script.formula f))
    : ∀ x ∈ f.names, IsQuotableName x := by
  cases f with
  | atom c =>
    unfold Script.formula at h
    have hargs := forall_isLexical_of_app h
    rw [List.forall_mem_cons, List.forall_mem_singleton] at hargs
    rw [Formula.names, List.forall_mem_append]
    exact ⟨isQuotableName_of_term hargs.1, isQuotableName_of_term hargs.2⟩
  | and items =>
    unfold Script.formula at h
    unfold Formula.names
    split at h
    . next hempty =>
      rw [List.isEmpty_iff.mp hempty]
      exact List.forall_mem_nil _
    . exact isQuotableName_of_formulas items (forall_isLexical_of_app h)
  | implies p q =>
    unfold Script.formula at h
    have hargs := forall_isLexical_of_app h
    rw [Formula.names, List.forall_mem_append]
    exact ⟨isQuotableName_of_formula p (hargs _ (by simp)), isQuotableName_of_formula q (hargs _ (by simp))⟩
  | forAll vars body | forSome vars body =>
    unfold Script.formula at h
    have hargs := forall_isLexical_of_app h
    have hbody := forall_isLexical_of_app (hargs _ (List.mem_cons_of_mem _ List.mem_cons_self))
    rw [Formula.names, List.forall_mem_append]
    exact ⟨isQuotableName_of_binders (hargs _ (by simp)), isQuotableName_of_formula body (hbody _ (by simp))⟩

theorem isQuotableName_of_formulas (fs : List Formula) (h : ∀ e ∈ Script.formulas fs, IsLexical e)
    : ∀ x ∈ Formula.namesAll fs, IsQuotableName x := by
  cases fs with
  | nil => exact List.forall_mem_nil _
  | cons f fs =>
    rw [Script.formulas, List.forall_mem_cons] at h
    rw [Formula.namesAll, List.forall_mem_append]
    exact ⟨isQuotableName_of_formula f h.1, isQuotableName_of_formulas fs h.2⟩

end

theorem isQuotableName_of_commands {q : Query} (h : ∀ e ∈ Script.commands q, IsLexical e)
    : ∀ x ∈ q.names, IsQuotableName x := by
  rw [Query.names, List.forall_mem_append, List.forall_mem_map]
  constructor
  . intro b hb
    have hdeclaration : SExpr.app "declare-const" [Script.symbol b.1, Script.sort b.2] ∈ Script.commands q := by
      unfold Script.commands
      refine List.mem_append_left _ (List.mem_append_left _ (List.mem_flatMap.mpr ⟨b, hb, ?_⟩))
      exact List.mem_cons_self
    exact isLexical_symbol_iff.mp (forall_isLexical_of_app (h _ hdeclaration) _ List.mem_cons_self)
  . have hassertion : SExpr.app "assert" [SExpr.app "not" [Script.formula q.body]] ∈ Script.commands q := by
      unfold Script.commands
      exact List.mem_append_left _ (List.mem_append_right _ List.mem_cons_self)
    have hnot := forall_isLexical_of_app (h _ hassertion) _ List.mem_cons_self
    exact isQuotableName_of_formula q.body (forall_isLexical_of_app hnot _ List.mem_cons_self)

theorem read_script_eq_commands_iff {q : Query}
    : read q.script = some (Script.commands q) ↔ ∀ x ∈ q.names, IsQuotableName x :=
  ⟨fun h => isQuotableName_of_commands (isLexical_of_read h), read_script⟩

end SmtLib

/-! Choosing other names. -/

namespace Formula

mutual

def rename (f : String → String) : Formula → Formula
  | .atom c => .atom (c.rename f)
  | .and items => .and (renameAll f items)
  | .implies p q => .implies (p.rename f) (q.rename f)
  | .forAll vars body => .forAll (vars.map fun b => (f b.1, b.2.rename f)) (body.rename f)
  | .forSome vars body => .forSome (vars.map fun b => (f b.1, b.2.rename f)) (body.rename f)

def renameAll (f : String → String) : List Formula → List Formula
  | [] => []
  | p :: ps => p.rename f :: renameAll f ps

end

end Formula

/--
Rename the variables of a query, bound or free.
-/
def Query.rename (f : String → String) (q : Query) : Query :=
  ⟨q.universals.map fun b => (f b.1, b.2.rename f), q.body.rename f⟩

namespace SmtLib

/--
Put other symbols between the bars of a lexeme, if it has any.
-/
def renameLexeme (f : String → String) (t : String) : String :=
  match t.toList with
  | '|' :: cs => "|" ++ f (String.ofList cs.dropLast) ++ "|"
  | _ => t

mutual

/--
Change the symbols of an expression that stand between bars, and nothing else.
-/
def renameSymbols (f : String → String) : SExpr → SExpr
  | .atom t => .atom (renameLexeme f t)
  | .list items => .list (renameSymbolsAll f items)

def renameSymbolsAll (f : String → String) : List SExpr → List SExpr
  | [] => []
  | e :: es => renameSymbols f e :: renameSymbolsAll f es

end

theorem renameSymbolsAll_eq_map (f : String → String) (es : List SExpr)
    : renameSymbolsAll f es = es.map (renameSymbols f) := by
  induction es with
  | nil => rfl
  | cons e es ih => rw [renameSymbolsAll, ih, List.map_cons]

theorem renameLexeme_word (f : String → String) {t : String} (h : IsWord t) : renameLexeme f t = t := by
  unfold renameLexeme
  split
  . next cs hcs =>
    have hbar := h.2 '|' (by simp [hcs])
    exact absurd hbar (by decide)
  . rfl

theorem renameSymbols_word (f : String → String) {t : String} (h : IsWord t)
    : renameSymbols f (.atom t) = .atom t := by
  rw [renameSymbols, renameLexeme_word f h]

theorem renameSymbols_symbol (f : String → String) (x : String)
    : renameSymbols f (Script.symbol x) = Script.symbol (f x) := by
  have hchars : ("|" ++ x ++ "|").toList = '|' :: (x.toList ++ ['|']) := by simp
  rw [Script.symbol, renameSymbols, renameLexeme, hchars]
  simp [Script.symbol]

theorem renameSymbols_app (f : String → String) {g : String} (hg : IsWord g) (args : List SExpr)
    : renameSymbols f (SExpr.app g args) = SExpr.app g (args.map (renameSymbols f)) := by
  rw [SExpr.app, renameSymbols, renameSymbolsAll, renameSymbols_word f hg, renameSymbolsAll_eq_map, SExpr.app]

theorem renameSymbols_list (f : String → String) (es : List SExpr)
    : renameSymbols f (.list es) = .list (es.map (renameSymbols f)) := by
  rw [renameSymbols, renameSymbolsAll_eq_map]

end SmtLib

/-! The script does not look into the kinds that variables stand for. -/

theorem GradeKind.rename_eq_float_iff {f : String → String} {kind : GradeKind}
    : kind.rename f = .float ↔ kind = .float := by
  cases kind <;> simp [GradeKind.rename]

theorem GradeKind.rename_eq_level_iff {f : String → String} {kind : GradeKind}
    : kind.rename f = .level ↔ kind = .level := by
  cases kind <;> simp [GradeKind.rename]

namespace SmtLib

variable (f : String → String)

theorem sort_rename (kind : GradeKind) : Script.sort (kind.rename f) = Script.sort kind := by
  simp only [Script.sort, GradeKind.rename_eq_float_iff]

theorem renameSymbols_sort (kind : GradeKind) : renameSymbols f (Script.sort kind) = Script.sort kind := by
  apply renameSymbols_word
  split <;> decide

theorem literal_rename (kind : GradeKind) (x : Float) : Script.literal (kind.rename f) x = Script.literal kind x := by
  simp only [Script.literal, GradeKind.rename_eq_float_iff]

theorem renameSymbols_literal (kind : GradeKind) (x : Float)
    : renameSymbols f (Script.literal kind x) = Script.literal kind x := by
  apply renameSymbols_word
  split
  . exact isWord_renderFixed 6 x
  . exact isWord_natural _

theorem renameSymbols_range (x : String) (kind : GradeKind)
    : renameSymbols f (Script.range x kind) = Script.range (f x) (kind.rename f) := by
  have hcompare : ∀ g n, IsWord g → IsWord n →
      renameSymbols f (SExpr.app g [Script.symbol x, .atom n]) = SExpr.app g [Script.symbol (f x), .atom n] := by
    intro g n hg hn
    rw [renameSymbols_app f hg, List.map_cons, List.map_singleton, renameSymbols_symbol, renameSymbols_word f hn]
  cases kind with
  | level =>
    rw [Script.range, renameSymbols_app f (by decide), List.map_cons, List.map_singleton,
      hcompare ">=" "0" (by decide) (by decide), hcompare "<=" "2" (by decide) (by decide)]
    rfl
  | _ => exact hcompare _ _ (by decide) (by decide)

theorem renameSymbols_binary {g : String} (hg : IsWord g) (a b : SExpr)
    : renameSymbols f (SExpr.app g [a, b]) = SExpr.app g [renameSymbols f a, renameSymbols f b] :=
  renameSymbols_app f hg _

theorem renameSymbols_ite (c a b : SExpr)
    : renameSymbols f (SExpr.app "ite" [c, a, b]) =
        SExpr.app "ite" [renameSymbols f c, renameSymbols f a, renameSymbols f b] :=
  renameSymbols_app f (by decide) _

theorem renameSymbols_larger (a b : SExpr)
    : renameSymbols f (Script.larger a b) = Script.larger (renameSymbols f a) (renameSymbols f b) := by
  rw [Script.larger, renameSymbols_ite, renameSymbols_binary f (by decide), Script.larger]

theorem renameSymbols_operation (kind : GradeKind) (o : Op) (a b : SExpr)
    : renameSymbols f (Script.operation kind o a b) =
        Script.operation (kind.rename f) o (renameSymbols f a) (renameSymbols f b) := by
  have hzero : renameSymbols f (.atom "0") = .atom "0" := renameSymbols_word f (by decide)
  cases o with
  | plus =>
    simp only [Script.operation, GradeKind.rename_eq_level_iff]
    split
    . exact renameSymbols_larger f a b
    . exact renameSymbols_binary f (by decide) a b
  | times =>
    simp only [Script.operation, GradeKind.rename_eq_level_iff]
    split
    . rw [renameSymbols_ite, renameSymbols_larger, renameSymbols_binary f (by decide),
        renameSymbols_binary f (by decide), renameSymbols_binary f (by decide), hzero]
    . exact renameSymbols_binary f (by decide) a b
  | join => exact renameSymbols_larger f a b
  | meet =>
    change renameSymbols f (SExpr.app "ite" _) = SExpr.app "ite" _
    rw [renameSymbols_ite, renameSymbols_binary f (by decide)]

theorem renameSymbols_term (kind : GradeKind) (g : Grade)
    : renameSymbols f (Script.term kind g) = Script.term (kind.rename f) (g.rename f) := by
  induction g with
  | var x => exact renameSymbols_symbol f x
  | nat n | zero kind' | one kind' => exact (renameSymbols_literal f kind _).trans (literal_rename f kind _).symm
  | float x => exact renameSymbols_literal f .float x
  | level l => exact renameSymbols_word f (isWord_natural _)
  | op o g h ihg ihh =>
    rw [Script.term, renameSymbols_operation, ihg, ihh]
    rfl

theorem renameSymbols_binders (vars : List Bound)
    : renameSymbols f (Script.binders vars) = Script.binders (vars.map fun b => (f b.1, b.2.rename f)) := by
  rw [Script.binders, renameSymbols_list, Script.binders, List.map_map, List.map_map]
  congr 1
  apply List.map_congr_left
  intro b _
  simp only [Function.comp_apply, renameSymbols_list, List.map_cons, List.map_nil, renameSymbols_symbol,
    renameSymbols_sort, sort_rename]

theorem renameSymbols_ranges (vars : List Bound)
    : renameSymbols f (Script.ranges vars) = Script.ranges (vars.map fun b => (f b.1, b.2.rename f)) := by
  rw [Script.ranges, renameSymbols_app f (by decide), Script.ranges, List.map_map, List.map_map]
  congr 1
  apply List.map_congr_left
  intro b _
  exact renameSymbols_range f b.1 b.2

mutual

theorem renameSymbols_formula (p : Formula) : renameSymbols f (Script.formula p) = Script.formula (p.rename f) := by
  cases p with
  | atom c =>
    have hrelation : IsWord c.relation.render := by cases c.relation <;> decide
    rw [Script.formula, renameSymbols_binary f hrelation, renameSymbols_term, renameSymbols_term]
    rfl
  | and items =>
    have hempty : (Formula.renameAll f items).isEmpty = items.isEmpty := by cases items <;> rfl
    rw [Script.formula, Formula.rename, Script.formula, hempty]
    split
    . exact renameSymbols_word f (by decide)
    . rw [renameSymbols_app f (by decide), renameSymbols_formulas items]
  | implies p q =>
    rw [Script.formula, renameSymbols_binary f (by decide), renameSymbols_formula p, renameSymbols_formula q]
    rfl
  | forAll vars body | forSome vars body =>
    rw [Script.formula, renameSymbols_binary f (by decide), renameSymbols_binary f (by decide), renameSymbols_binders,
      renameSymbols_ranges, renameSymbols_formula body]
    rfl

theorem renameSymbols_formulas (ps : List Formula)
    : (Script.formulas ps).map (renameSymbols f) = Script.formulas (Formula.renameAll f ps) := by
  cases ps with
  | nil => rfl
  | cons p ps =>
    rw [Script.formulas, List.map_cons, renameSymbols_formula p, renameSymbols_formulas ps]
    rfl

end

theorem commands_rename (q : Query) : Script.commands (q.rename f) = (Script.commands q).map (renameSymbols f) := by
  have hassert : ∀ e, renameSymbols f (SExpr.app "assert" [e]) = SExpr.app "assert" [renameSymbols f e] :=
    fun e => renameSymbols_app f (by decide) _
  have hnot : ∀ e, renameSymbols f (SExpr.app "not" [e]) = SExpr.app "not" [renameSymbols f e] :=
    fun e => renameSymbols_app f (by decide) _
  have hcheck : renameSymbols f (SExpr.app "check-sat" []) = SExpr.app "check-sat" [] :=
    renameSymbols_app f (by decide) _
  have hvalues : ∀ e, renameSymbols f (SExpr.app "get-value" [e]) = SExpr.app "get-value" [renameSymbols f e] :=
    fun e => renameSymbols_app f (by decide) _
  have hdeclare : ∀ a b, renameSymbols f (SExpr.app "declare-const" [a, b]) =
      SExpr.app "declare-const" [renameSymbols f a, renameSymbols f b] :=
    renameSymbols_binary f (by decide)
  simp only [Script.commands, Query.rename, List.map_append, List.map_flatMap, List.flatMap_map, List.map_cons,
    List.map_nil, List.isEmpty_map, apply_ite (List.map (renameSymbols f)), List.map_map, Function.comp_def, hassert,
    hnot, hcheck, hvalues, hdeclare, renameSymbols_symbol, renameSymbols_sort, sort_rename, renameSymbols_range,
    renameSymbols_list, renameSymbols_formula]

end SmtLib

theorem Grade.occurrences_rename (f : String → String) (g : Grade)
    : (g.rename f).occurrences = g.occurrences.map f := by
  induction g with
  | op o a b iha ihb => simp only [Grade.rename, Grade.occurrences, iha, ihb, List.map_append]
  | _ => rfl

mutual

theorem Formula.names_rename (f : String → String) (p : Formula) : (p.rename f).names = p.names.map f := by
  cases p with
  | atom c =>
    simp only [Formula.rename, Formula.names, Constraint.rename, Grade.occurrences_rename, List.map_append]
  | and items =>
    rw [Formula.rename, Formula.names, Formula.names]
    exact Formula.namesAll_rename f items
  | implies p q =>
    rw [Formula.rename, Formula.names, Formula.names, Formula.names_rename f p, Formula.names_rename f q,
      List.map_append]
  | forAll vars body | forSome vars body =>
    simp only [Formula.rename, Formula.names, Formula.names_rename f body, List.map_append, List.map_map,
      Function.comp_def]

theorem Formula.namesAll_rename (f : String → String) (ps : List Formula)
    : Formula.namesAll (Formula.renameAll f ps) = (Formula.namesAll ps).map f := by
  cases ps with
  | nil => rfl
  | cons p ps =>
    rw [Formula.renameAll, Formula.namesAll, Formula.namesAll, Formula.names_rename f p, Formula.namesAll_rename f ps,
      List.map_append]

end

theorem Query.names_rename (f : String → String) (q : Query) : (q.rename f).names = q.names.map f := by
  simp only [Query.names, Query.rename, Formula.names_rename, List.map_append, List.map_map, Function.comp_def]

open SmtLib

/--
The script is read as the commands of the query, with one symbol for each name, exactly if bars make a symbol of each
name. Then other names of this kind change the symbols of the commands and nothing else, and no other names do so.
-/
theorem script_read_iff_names_quotable (q : Query)
    : (read q.script = some (Script.commands q) ↔ ∀ x ∈ q.names, IsQuotableName x) ∧
        (∀ f : String → String, read (q.rename f).script = some ((Script.commands q).map (renameSymbols f)) ↔
          ∀ x ∈ q.names, IsQuotableName (f x)) ∧
        ∀ x, ∃ t, Script.symbol x = .atom t ∧ symbol? t = some x := by
  refine ⟨read_script_eq_commands_iff, ?_, fun x => ⟨_, rfl, symbol?_quoted x⟩⟩
  intro f
  rw [← commands_rename, read_script_eq_commands_iff, Query.names_rename, List.forall_mem_map]

/--
A name that ends its own symbol, asserts what is false, asks for an answer and ends the session.
-/
def intrudingName : String :=
  "a| Int)(assert false)(check-sat)(exit)(assert |b"

/--
Zero is not one, whatever the variable is called.
-/
def intrudedQuery : Query :=
  ⟨[(intrudingName, .nat)], .atom ⟨0, .eq, .zero .nat, .one .nat, .nat⟩⟩

/--
What is read for the name: commands of its own, between what comes before it and what comes after it.
-/
def intruded (before : SExpr) (after : List SExpr) : List SExpr :=
  [before, SExpr.app "assert" [.atom "false"], SExpr.app "check-sat" [], SExpr.app "exit" [],
    SExpr.app "assert" (Script.symbol "b" :: after)]

/--
A solver that runs these commands finds a contradiction and stops before it comes to the query.
-/
def intrudedCommands : List SExpr :=
  intruded (SExpr.app "declare-const" [Script.symbol "a", .atom "Int"]) [.atom "Int"] ++
    [SExpr.app "assert" (intruded (SExpr.app ">=" [Script.symbol "a", .atom "Int"]) [.atom "0"]),
      SExpr.app "assert" [SExpr.app "not" [SExpr.app "=" [.atom "0", .atom "1"]]],
      SExpr.app "check-sat" [],
      SExpr.app "get-value" (intruded (.list [Script.symbol "a", .atom "Int"]) [])]

theorem script_read_intruded
    : ¬ intrudedQuery.formula.IsTrue .standard [] ∧ read intrudedQuery.script = some intrudedCommands ∧
        read intrudedQuery.script ≠ some (Script.commands intrudedQuery) := by
  refine ⟨?_, ?_, ?_⟩
  . intro h
    have hzero : (Except.ok false : Except EvalError Bool) = .ok true := h (.nat 0) rfl
    cases hzero
  . have hzero : toString (0 : Float).toUInt64.toNat = "0" := by decide +kernel
    have hone : toString (1 : Float).toUInt64.toNat = "1" := by decide +kernel
    have hscript : intrudedQuery.script.toList =
        "(declare-const |".toList ++ intrudingName.toList ++ "| Int)\n(assert (>= |".toList ++ intrudingName.toList ++
          "| 0))\n(assert (not (= 0 1)))\n(check-sat)\n(get-value (|".toList ++ intrudingName.toList ++
            "|))\n".toList := by
      simp [intrudedQuery, Query.script, Script.commands, Script.symbol, Script.sort, Script.range, Script.formula,
        Script.term, Script.literal, hzero, hone, SExpr.app, SExpr.render, SExpr.renderAll, Relation.render]
    have hlexemes : lexemes .between intrudedQuery.script.toList = some (lexemesOfAll intrudedCommands) := by
      rw [hscript]
      decide +kernel
    unfold SmtLib.read
    rw [hlexemes]
    cbv
  . rw [ne_eq, read_script_eq_commands_iff]
    decide +kernel

end GradedModal
