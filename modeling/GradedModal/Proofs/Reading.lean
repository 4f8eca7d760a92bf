import GradedModal.Solver.Script

/-!
This module reads texts the way SMT-LIB prescribes: first the lexemes, then the expressions that parentheses make of
them. An expression whose atoms are lexemes is read back from its text.
-/

namespace GradedModal
namespace SmtLib

open SExpr (isParen)

def isSpace (c : Char) : Bool :=
  c = ' ' || c = '\t' || c = '\n' || c = '\r'

/--
The characters of numerals and of symbols that need no bars.
-/
def isWordChar (c : Char) : Bool :=
  c.isAlphanum || "~!@$%^&*_-+=<>.?/".toList.contains c

/--
The characters that can stand between bars: white space and what is printable, but no bar and no backslash.
-/
def isQuotable (c : Char) : Bool :=
  (isSpace c || (0x20 ≤ c.toNat && c.toNat ≠ 0x7F)) && c ≠ '|' && c ≠ '\\'

/--
Where the reader of lexemes stands. The characters of an unfinished lexeme are held last first.
-/
inductive Place where
  | between
  | word (done : List Char)
  | quoted (done : List Char)
  | comment

/--
The lexemes of a text: parentheses, words, and symbols between bars, which they keep. There is no answer if a bar is
not closed, or for a character that has no place.
-/
def lexemes : Place → List Char → Option (List String)
  | .between, [] => some []
  | .comment, [] => some []
  | .word done, [] => some [String.ofList done.reverse]
  | .quoted _, [] => none
  | .between, c :: cs =>
    if isWordChar c then lexemes (.word [c]) cs
    else if c = '|' then lexemes (.quoted []) cs
    else if isSpace c then lexemes .between cs
    else if isParen c then (lexemes .between cs).map (String.singleton c :: ·)
    else if c = ';' then lexemes .comment cs
    else none
  | .word done, c :: cs =>
    if isWordChar c then lexemes (.word (c :: done)) cs
    else if isSpace c then (lexemes .between cs).map (String.ofList done.reverse :: ·)
    else if isParen c then (lexemes .between cs).map (String.ofList done.reverse :: String.singleton c :: ·)
    else if c = ';' then (lexemes .comment cs).map (String.ofList done.reverse :: ·)
    else none
  | .quoted done, c :: cs =>
    if c = '|' then (lexemes .between cs).map (("|" ++ String.ofList done.reverse ++ "|") :: ·)
    else if isQuotable c then lexemes (.quoted (c :: done)) cs
    else none
  | .comment, c :: cs => if c = '\n' || c = '\r' then lexemes .between cs else lexemes .comment cs

/--
The expressions that lexemes make. The items that were read of a list stand last first, those of the lists around it
next to it.
-/
def expressions (items : List SExpr) (outer : List (List SExpr)) : List String → Option (List SExpr)
  | [] => if outer.isEmpty then some items.reverse else none
  | t :: ts =>
    if t = "(" then
      expressions [] (items :: outer) ts
    else if t = ")" then
      match outer with
      | [] => none
      | above :: outer => expressions (.list items.reverse :: above) outer ts
    else
      expressions (.atom t :: items) outer ts

/--
The expressions of a text.
-/
def read (text : String) : Option (List SExpr) :=
  (lexemes .between text.toList).bind (expressions [] [])

def IsWord (t : String) : Prop :=
  t.toList ≠ [] ∧ ∀ c ∈ t.toList, isWordChar c = true

-- The characters of a text are tried, not all characters.
instance (t : String) : Decidable (IsWord t) :=
  @instDecidableAnd _ _ inferInstance (List.decidableBAll _ _)

/--
Whether bars make a symbol of a name.
-/
def IsQuotableName (x : String) : Prop :=
  ∀ c ∈ x.toList, isQuotable c = true

instance (x : String) : Decidable (IsQuotableName x) :=
  List.decidableBAll _ _

inductive IsLexeme : String → Prop
  | word {t : String} (h : IsWord t) : IsLexeme t
  | quoted {x : String} (h : IsQuotableName x) : IsLexeme ("|" ++ x ++ "|")

mutual

def IsLexical : SExpr → Prop
  | .atom t => IsLexeme t
  | .list items => AreLexical items

def AreLexical : List SExpr → Prop
  | [] => True
  | e :: es => IsLexical e ∧ AreLexical es

end

mutual

def lexemesOf : SExpr → List String
  | .atom t => [t]
  | .list items => "(" :: (lexemesOfAll items ++ [")"])

def lexemesOfAll : List SExpr → List String
  | [] => []
  | e :: es => lexemesOf e ++ lexemesOfAll es

end

def Ends (cs : List Char) : Prop :=
  ∀ c ∈ cs.head?, isSpace c = true ∨ isParen c = true

theorem isWordChar_of_ends {c : Char} (h : isSpace c = true ∨ isParen c = true) : isWordChar c = false := by
  unfold isSpace SExpr.isParen at h
  simp only [Bool.or_eq_true, decide_eq_true_eq] at h
  rcases h with (((rfl | rfl) | rfl) | rfl) | rfl | rfl <;> decide

theorem lexemes_word_append (done w cs : List Char) (hw : ∀ c ∈ w, isWordChar c = true)
    : lexemes (.word done) (w ++ cs) = lexemes (.word (w.reverse ++ done)) cs := by
  induction w generalizing done with
  | nil => rfl
  | cons c w ih =>
    rw [List.cons_append, lexemes, if_pos (hw c List.mem_cons_self), ih _ fun d hd => hw d (List.mem_cons_of_mem _ hd)]
    simp

theorem lexemes_word_of_ends (done cs : List Char) (h : Ends cs)
    : lexemes (.word done) cs = (lexemes .between cs).map (String.ofList done.reverse :: ·) := by
  cases cs with
  | nil => rfl
  | cons c cs =>
    have hc := h c rfl
    have hword := isWordChar_of_ends hc
    have hbar : c ≠ '|' := by
      rintro rfl
      revert hc
      decide
    rw [lexemes, lexemes]
    simp only [hword, Bool.false_eq_true, if_false, hbar]
    split
    . rfl
    . next hspace =>
      have hparen := hc.resolve_left hspace
      simp [hparen, Function.comp_def]

theorem lexemes_quoted_append (done x cs : List Char) (hx : ∀ c ∈ x, isQuotable c = true)
    : lexemes (.quoted done) (x ++ '|' :: cs) =
        (lexemes .between cs).map (("|" ++ String.ofList (done.reverse ++ x) ++ "|") :: ·) := by
  induction x generalizing done with
  | nil =>
    rw [List.nil_append, lexemes, if_pos rfl, List.append_nil]
  | cons c x ih =>
    have hc := hx c List.mem_cons_self
    have hbar : c ≠ '|' := by
      rintro rfl
      revert hc
      decide
    rw [List.cons_append, lexemes, if_neg hbar, if_pos hc, ih _ fun d hd => hx d (List.mem_cons_of_mem _ hd)]
    simp

theorem lexemes_append {t : String} (ht : IsLexeme t) {cs : List Char} (hcs : Ends cs)
    : lexemes .between (t.toList ++ cs) = (lexemes .between cs).map (t :: ·) := by
  cases ht with
  | word h =>
    obtain ⟨hne, h⟩ := h
    obtain ⟨c, w, hw⟩ := List.exists_cons_of_ne_nil hne
    rw [hw] at h
    rw [hw, List.cons_append, lexemes, if_pos (h c List.mem_cons_self),
      lexemes_word_append _ _ _ fun d hd => h d (List.mem_cons_of_mem _ hd), lexemes_word_of_ends _ _ hcs]
    simp [← hw]
  | quoted h =>
    rename_i x
    have hchars : ("|" ++ x ++ "|").toList ++ cs = '|' :: (x.toList ++ '|' :: cs) := by
      simp
    have hbar : isWordChar '|' = false := by decide
    rw [hchars, lexemes, hbar]
    simp only [Bool.false_eq_true, if_false, if_true]
    rw [lexemes_quoted_append _ _ _ h]
    simp

theorem lexemes_paren {c : Char} (hc : isParen c = true) (cs : List Char)
    : lexemes .between (c :: cs) = (lexemes .between cs).map (String.singleton c :: ·) := by
  unfold SExpr.isParen at hc
  simp only [Bool.or_eq_true, decide_eq_true_eq] at hc
  rcases hc with rfl | rfl <;> rfl

theorem lexemes_space {c : Char} (hc : isSpace c = true) (cs : List Char)
    : lexemes .between (c :: cs) = lexemes .between cs := by
  unfold isSpace at hc
  simp only [Bool.or_eq_true, decide_eq_true_eq] at hc
  rcases hc with ((rfl | rfl) | rfl) | rfl <;> rfl

mutual

theorem lexemes_render (e : SExpr) (he : IsLexical e) {cs : List Char} (hcs : Ends cs)
    : lexemes .between (e.render.toList ++ cs) = (lexemes .between cs).map (lexemesOf e ++ ·) := by
  cases e with
  | atom t =>
    unfold IsLexical at he
    rw [SExpr.render, lexemes_append he hcs]
    rfl
  | list items =>
    unfold IsLexical at he
    have hclose : Ends (')' :: cs) := by
      intro c hc
      cases hc
      exact .inr rfl
    have hchars : (SExpr.list items).render.toList ++ cs =
        '(' :: ((" ".intercalate (SExpr.renderAll items)).toList ++ ')' :: cs) := by
      rw [SExpr.render]
      simp
    rw [hchars, lexemes_paren rfl, lexemes_renderAll items he hclose, lexemes_paren rfl]
    simp [lexemesOf, Function.comp_def]

theorem lexemes_renderAll (es : List SExpr) (hes : AreLexical es) {cs : List Char} (hcs : Ends cs)
    : lexemes .between ((" ".intercalate (SExpr.renderAll es)).toList ++ cs) =
        (lexemes .between cs).map (lexemesOfAll es ++ ·) := by
  cases es with
  | nil => simp [SExpr.renderAll, lexemesOfAll]
  | cons e es =>
    unfold AreLexical at hes
    cases hrest : es with
    | nil =>
      rw [SExpr.renderAll, SExpr.renderAll, String.intercalate_singleton, lexemes_render e hes.1 hcs]
      simp [lexemesOfAll]
    | cons e' es' =>
      have hspace : Ends (' ' :: ((" ".intercalate (SExpr.renderAll es)).toList ++ cs)) := by
        intro c hc
        cases hc
        exact .inl rfl
      have hne : SExpr.renderAll es ≠ [] := by
        rw [hrest, SExpr.renderAll]
        exact List.cons_ne_nil _ _
      have hchars : (" ".intercalate (SExpr.renderAll (e :: es))).toList ++ cs =
          e.render.toList ++ ' ' :: ((" ".intercalate (SExpr.renderAll es)).toList ++ cs) := by
        rw [SExpr.renderAll, String.intercalate_cons_of_ne_nil hne]
        simp
      rw [← hrest, hchars, lexemes_render e hes.1 hspace, lexemes_space rfl, lexemes_renderAll es hes.2 hcs]
      simp [lexemesOfAll, Function.comp_def]

end

theorem IsLexeme.ne_paren {t : String} (h : IsLexeme t) : t ≠ "(" ∧ t ≠ ")" := by
  cases h with
  | word h =>
    constructor
    . rintro rfl
      exact absurd h (by decide)
    . rintro rfl
      exact absurd h (by decide)
  | quoted h =>
    constructor
    . intro heq
      simpa using congrArg (fun t => t.toList.head?) heq
    . intro heq
      simpa using congrArg (fun t => t.toList.head?) heq

theorem expressions_atom {t : String} (h : IsLexeme t) (items : List SExpr) (outer : List (List SExpr))
    (ts : List String) : expressions items outer (t :: ts) = expressions (.atom t :: items) outer ts := by
  obtain ⟨hopen, hclose⟩ := h.ne_paren
  simp only [expressions, hopen, hclose, if_false]

mutual

theorem expressions_lexemesOf (e : SExpr) (he : IsLexical e) (items : List SExpr) (outer : List (List SExpr))
    (ts : List String) : expressions items outer (lexemesOf e ++ ts) = expressions (e :: items) outer ts := by
  cases e with
  | atom t =>
    unfold IsLexical at he
    exact expressions_atom he items outer ts
  | list es =>
    unfold IsLexical at he
    have hopen : expressions items outer (lexemesOf (.list es) ++ ts) =
        expressions [] (items :: outer) (lexemesOfAll es ++ ")" :: ts) := by
      simp [lexemesOf, expressions]
    rw [hopen, expressions_lexemesOfAll es he]
    simp [expressions]

theorem expressions_lexemesOfAll (es : List SExpr) (hes : AreLexical es) (items : List SExpr)
    (outer : List (List SExpr)) (ts : List String)
    : expressions items outer (lexemesOfAll es ++ ts) = expressions (es.reverse ++ items) outer ts := by
  cases es with
  | nil => rfl
  | cons e es =>
    unfold AreLexical at hes
    rw [lexemesOfAll, List.append_assoc, expressions_lexemesOf e hes.1, expressions_lexemesOfAll es hes.2]
    simp

end

theorem read_render {e : SExpr} (he : IsLexical e) : read e.render = some [e] := by
  have hend : Ends [] := by simp [Ends]
  have hlex := lexemes_render e he hend
  rw [List.append_nil] at hlex
  unfold read
  rw [hlex]
  have hexpr := expressions_lexemesOf e he [] [] []
  simpa [lexemes, expressions] using hexpr

theorem read_lines {es : List SExpr} (hes : AreLexical es)
    : read (String.join (es.map fun e => e.render ++ "\n")) = some es := by
  have hlex : lexemes .between (String.join (es.map fun e => e.render ++ "\n")).toList = some (lexemesOfAll es) := by
    induction es with
    | nil => rfl
    | cons e es ih =>
      unfold AreLexical at hes
      have hline : Ends ('\n' :: (String.join (es.map fun e => e.render ++ "\n")).toList) := by
        intro c hc
        cases hc
        exact .inl rfl
      have hchars : (String.join ((e :: es).map fun e => e.render ++ "\n")).toList =
          e.render.toList ++ '\n' :: (String.join (es.map fun e => e.render ++ "\n")).toList := by
        simp
      rw [hchars, lexemes_render e hes.1 hline, lexemes_space rfl, ih hes.2]
      rfl
  have hexpr := expressions_lexemesOfAll es hes [] [] []
  unfold read
  rw [hlex]
  simpa [expressions] using hexpr

theorem areLexical_iff {es : List SExpr} : AreLexical es ↔ ∀ e ∈ es, IsLexical e := by
  induction es with
  | nil => simp [AreLexical]
  | cons e es ih => simp [AreLexical, ih]

theorem isLexical_word {t : String} (h : IsWord t) : IsLexical (.atom t) := by
  unfold IsLexical
  exact .word h

theorem isLexical_symbol {x : String} (hx : IsQuotableName x) : IsLexical (Script.symbol x) := by
  unfold Script.symbol IsLexical
  exact .quoted hx

theorem isLexical_list {es : List SExpr} (hes : ∀ e ∈ es, IsLexical e) : IsLexical (.list es) := by
  unfold IsLexical
  exact areLexical_iff.mpr hes

theorem isLexical_app {f : String} {args : List SExpr} (hf : IsWord f) (hargs : ∀ e ∈ args, IsLexical e)
    : IsLexical (SExpr.app f args) := by
  apply isLexical_list
  rw [List.forall_mem_cons]
  exact ⟨isLexical_word hf, hargs⟩

theorem IsWord.append {s t : String} (hs : ∀ c ∈ s.toList, isWordChar c = true) (ht : IsWord t) : IsWord (s ++ t) := by
  obtain ⟨hne, h⟩ := ht
  constructor
  . rw [String.toList_append]
    exact List.append_ne_nil_of_right_ne_nil _ hne
  . intro c hc
    rw [String.toList_append, List.mem_append] at hc
    exact hc.elim (hs c) (h c)

theorem isWordChar_of_mem_toDigits {n : Nat} {c : Char} (h : c ∈ Nat.toDigits 10 n) : isWordChar c = true := by
  have hdigit := Nat.isDigit_of_mem_toDigits (by decide) (by decide) h
  simp [isWordChar, Char.isAlphanum, hdigit]

theorem isWord_natural (n : Nat) : IsWord (toString n) := by
  unfold IsWord
  rw [Nat.toString_eq_ofList_toDigits, String.toList_ofList]
  exact ⟨Nat.toDigits_ne_nil, fun c => isWordChar_of_mem_toDigits⟩

theorem isWord_renderFixed (places : Nat) (x : Float) : IsWord (Decimal.renderFixed places x) := by
  unfold Decimal.renderFixed
  split
  . decide
  . apply IsWord.append
    . rw [← List.all_eq_true]
      split <;> decide
    . split
      . decide
      . dsimp only
        apply IsWord.append
        . intro c hc
          rw [String.toList_append, List.mem_append] at hc
          rcases hc with hc | hc
          . exact (isWord_natural _).2 c hc
          . revert c
            rw [← List.all_eq_true]
            decide
        . constructor
          . simp [Nat.toDigits_ne_nil]
          . intro c hc
            rw [String.toList_ofList, List.mem_append] at hc
            rcases hc with hc | hc
            . obtain rfl := List.eq_of_mem_replicate hc
              decide
            . exact isWordChar_of_mem_toDigits hc

end SmtLib

mutual

/--
The names that a formula binds or mentions.
-/
def Formula.names : Formula → List String
  | .atom c => c.left.occurrences ++ c.right.occurrences
  | .and items => namesAll items
  | .implies p q => p.names ++ q.names
  | .forAll vars body => vars.map (·.1) ++ body.names
  | .forSome vars body => vars.map (·.1) ++ body.names

def Formula.namesAll : List Formula → List String
  | [] => []
  | f :: fs => f.names ++ namesAll fs

end

def Query.names (q : Query) : List String :=
  q.universals.map (·.1) ++ q.body.names

namespace SmtLib

theorem isLexical_binary {f : String} {a b : SExpr} (hf : IsWord f) (ha : IsLexical a) (hb : IsLexical b)
    : IsLexical (SExpr.app f [a, b]) := by
  apply isLexical_app hf
  simp [ha, hb]

theorem isLexical_ite {c a b : SExpr} (hc : IsLexical c) (ha : IsLexical a) (hb : IsLexical b)
    : IsLexical (SExpr.app "ite" [c, a, b]) := by
  apply isLexical_app (by decide)
  simp [hc, ha, hb]

theorem isLexical_range {x : String} (hx : IsQuotableName x) (kind : GradeKind) : IsLexical (Script.range x kind) := by
  have hcompare : ∀ f n, IsWord f → IsWord n → IsLexical (SExpr.app f [Script.symbol x, .atom n]) :=
    fun f n hf hn => isLexical_binary hf (isLexical_symbol hx) (isLexical_word hn)
  cases kind with
  | level =>
    exact isLexical_binary (by decide) (hcompare ">=" "0" (by decide) (by decide))
      (hcompare "<=" "2" (by decide) (by decide))
  | _ => exact hcompare _ _ (by decide) (by decide)

theorem isLexical_larger {a b : SExpr} (ha : IsLexical a) (hb : IsLexical b) : IsLexical (Script.larger a b) :=
  isLexical_ite (isLexical_binary (by decide) ha hb) ha hb

theorem isLexical_operation {kind : GradeKind} {o : Op} {a b : SExpr} (ha : IsLexical a) (hb : IsLexical b)
    : IsLexical (Script.operation kind o a b) := by
  have hzero : IsLexical (.atom "0") := isLexical_word (by decide)
  unfold Script.operation
  cases o with
  | plus =>
    dsimp only
    split
    . exact isLexical_larger ha hb
    . exact isLexical_binary (by decide) ha hb
  | times =>
    dsimp only
    split
    . apply isLexical_ite _ hzero (isLexical_larger ha hb)
      apply isLexical_binary (by decide)
      . exact isLexical_binary (by decide) ha hzero
      . exact isLexical_binary (by decide) hb hzero
    . exact isLexical_binary (by decide) ha hb
  | join => exact isLexical_larger ha hb
  | meet => exact isLexical_ite (isLexical_binary (by decide) ha hb) ha hb

theorem isLexical_literal (kind : GradeKind) (x : Float) : IsLexical (Script.literal kind x) := by
  apply isLexical_word
  split
  . exact isWord_renderFixed 6 x
  . exact isWord_natural _

theorem isLexical_term {kind : GradeKind} {g : Grade} (hg : ∀ x ∈ g.occurrences, IsQuotableName x)
    : IsLexical (Script.term kind g) := by
  induction g with
  | var x => exact isLexical_symbol (hg x List.mem_cons_self)
  | nat n => exact isLexical_literal kind _
  | float x => exact isLexical_literal .float x
  | level l => exact isLexical_word (isWord_natural _)
  | zero kind' => exact isLexical_literal kind 0
  | one kind' => exact isLexical_literal kind 1
  | op o g h ihg ihh =>
    apply isLexical_operation
    . exact ihg fun x hx => hg x (List.mem_append_left _ hx)
    . exact ihh fun x hx => hg x (List.mem_append_right _ hx)

theorem isLexical_binders {vars : List Bound} (hvars : ∀ x ∈ vars.map (·.1), IsQuotableName x)
    : IsLexical (Script.binders vars) := by
  apply isLexical_list
  simp only [List.forall_mem_map]
  intro b hb
  apply isLexical_list
  have hsort : IsLexical (Script.sort b.2) := by
    apply isLexical_word
    split <;> decide
  simp [isLexical_symbol (hvars b.1 (List.mem_map_of_mem hb)), hsort]

theorem isLexical_ranges {vars : List Bound} (hvars : ∀ x ∈ vars.map (·.1), IsQuotableName x)
    : IsLexical (Script.ranges vars) := by
  apply isLexical_app (by decide)
  simp only [List.forall_mem_map]
  intro b hb
  exact isLexical_range (hvars b.1 (List.mem_map_of_mem hb)) b.2

mutual

theorem isLexical_formula (f : Formula) (hf : ∀ x ∈ f.names, IsQuotableName x) : IsLexical (Script.formula f) := by
  cases f with
  | atom c =>
    unfold Formula.names at hf
    unfold Script.formula
    apply isLexical_binary
    . cases c.relation <;> decide
    . exact isLexical_term fun x hx => hf x (List.mem_append_left _ hx)
    . exact isLexical_term fun x hx => hf x (List.mem_append_right _ hx)
  | and items =>
    unfold Formula.names at hf
    unfold Script.formula
    split
    . exact isLexical_word (by decide)
    . exact isLexical_app (by decide) (isLexical_formulas items hf)
  | implies p q =>
    unfold Formula.names at hf
    unfold Script.formula
    apply isLexical_binary (by decide)
    . exact isLexical_formula p fun x hx => hf x (List.mem_append_left _ hx)
    . exact isLexical_formula q fun x hx => hf x (List.mem_append_right _ hx)
  | forAll vars body | forSome vars body =>
    unfold Formula.names at hf
    have hvars : ∀ x ∈ vars.map (·.1), IsQuotableName x := fun x hx => hf x (List.mem_append_left _ hx)
    have hbody := isLexical_formula body fun x hx => hf x (List.mem_append_right _ hx)
    unfold Script.formula
    apply isLexical_binary (by decide) (isLexical_binders hvars)
    exact isLexical_binary (by decide) (isLexical_ranges hvars) hbody

theorem isLexical_formulas (fs : List Formula) (hfs : ∀ x ∈ Formula.namesAll fs, IsQuotableName x)
    : ∀ e ∈ Script.formulas fs, IsLexical e := by
  cases fs with
  | nil => simp [Script.formulas]
  | cons f fs =>
    unfold Formula.namesAll at hfs
    unfold Script.formulas
    rw [List.forall_mem_cons]
    constructor
    . exact isLexical_formula f fun x hx => hfs x (List.mem_append_left _ hx)
    . exact isLexical_formulas fs fun x hx => hfs x (List.mem_append_right _ hx)

end

theorem areLexical_commands {q : Query} (hq : ∀ x ∈ q.names, IsQuotableName x) : AreLexical (Script.commands q) := by
  have huniversals : ∀ b ∈ q.universals, IsQuotableName b.1 :=
    fun b hb => hq b.1 (List.mem_append_left _ (List.mem_map_of_mem hb))
  have hbody := isLexical_formula q.body fun x hx => hq x (List.mem_append_right _ hx)
  have hassert : ∀ e, IsLexical e → IsLexical (SExpr.app "assert" [e]) := by
    intro e he
    apply isLexical_app (by decide)
    simpa using he
  rw [areLexical_iff]
  intro e he
  unfold Script.commands at he
  simp only [List.mem_append, List.mem_flatMap, List.mem_cons, List.not_mem_nil, or_false] at he
  rcases he with (⟨b, hb, rfl | rfl⟩ | rfl | rfl) | he
  . apply isLexical_binary (by decide) (isLexical_symbol (huniversals b hb))
    apply isLexical_word
    split <;> decide
  . exact hassert _ (isLexical_range (huniversals b hb) b.2)
  . apply hassert
    apply isLexical_app (by decide)
    simpa using hbody
  . exact isLexical_app (by decide) (List.forall_mem_nil _)
  . split at he
    . cases he
    . obtain rfl := List.mem_singleton.mp he
      apply isLexical_app (by decide)
      rw [List.forall_mem_singleton]
      apply isLexical_list
      simp only [List.forall_mem_map]
      exact fun b hb => isLexical_symbol (huniversals b hb)

theorem read_script {q : Query} (hq : ∀ x ∈ q.names, IsQuotableName x) : read q.script = some (Script.commands q) :=
  read_lines (areLexical_commands hq)

end SmtLib
end GradedModal
