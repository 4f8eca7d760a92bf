import GradedModal.Proofs.Reading

/-!
This module says that an expression is read back from every text that spells it, whatever blanks stand between its
tokens and whatever text follows, and that reading never goes past the last token.
-/

namespace GradedModal
namespace SExpr

open SmtLib (lexemesOf lexemesOfAll)

mutual

def atoms : SExpr → List String
  | .atom t => [t]
  | .list items => atomsAll items

def atomsAll : List SExpr → List String
  | [] => []
  | e :: es => e.atoms ++ atomsAll es

end

/--
An atom that is one token as it stands.
-/
def IsBare (t : String) : Prop :=
  t ≠ "" ∧ (∀ c ∈ t.toList, isBlank c = false ∧ isParen c = false) ∧ t.toList.head? ≠ some '|'

-- The characters of a text are tried, not all characters.
instance (t : String) : Decidable (IsBare t) :=
  @instDecidableAnd _ _ inferInstance (@instDecidableAnd _ _ (List.decidableBAll _ _) inferInstance)

def IsParenthesis (t : String) : Prop :=
  t = "(" ∨ t = ")"

/--
A text consists of tokens with blanks between them. There need not be any next to a parenthesis.
-/
inductive Spells : String → List String → Prop where
  | last (t : String) : Spells t [t]
  | cons {t u blanks text : String} {ts : List String} (hblanks : ∀ c ∈ blanks.toList, isBlank c = true)
    (hgap : blanks ≠ "" ∨ IsParenthesis t ∨ IsParenthesis u) (h : Spells text (u :: ts)) :
    Spells (t ++ blanks ++ text) (t :: u :: ts)

/--
A word cannot go on at the start of a text.
-/
def Delimits (cs : List Char) : Prop :=
  ∀ c ∈ cs.head?, isBlank c = true ∨ isParen c = true

theorem isParen_of_isParenthesis {t : String} (h : IsParenthesis t)
    : ∃ c, t = String.singleton c ∧ isParen c = true := by
  rcases h with rfl | rfl
  . exact ⟨'(', rfl, rfl⟩
  . exact ⟨')', rfl, rfl⟩

theorem IsBare.not_isParenthesis {t : String} (h : IsBare t) : ¬IsParenthesis t := by
  intro hparen
  obtain ⟨c, rfl, hc⟩ := isParen_of_isParenthesis hparen
  have hbare := (h.2.1 c (by simp)).2
  rw [hc] at hbare
  cases hbare

theorem isParen_of_isBlank {c : Char} (h : isBlank c = true) : isParen c = false := by
  rw [Bool.eq_false_iff]
  intro hparen
  unfold isParen at hparen
  rw [Bool.or_eq_true, decide_eq_true_eq, decide_eq_true_eq] at hparen
  rcases hparen with rfl | rfl
  . exact absurd h (by decide)
  . exact absurd h (by decide)

theorem go_paren {c : Char} (h : isParen c = true) (cs : List Char)
    : tokens.go .between (c :: cs) = String.singleton c :: tokens.go .between cs := by
  rw [tokens.go, if_pos h]

theorem go_blank {c : Char} (h : isBlank c = true) (cs : List Char)
    : tokens.go .between (c :: cs) = tokens.go .between cs := by
  have hbar : c ≠ '|' := by
    rintro rfl
    exact absurd h (by decide)
  simp [tokens.go, isParen_of_isBlank h, hbar, h]

theorem go_blanks {blanks : List Char} (h : ∀ c ∈ blanks, isBlank c = true) (cs : List Char)
    : tokens.go .between (blanks ++ cs) = tokens.go .between cs := by
  induction blanks with
  | nil => rfl
  | cons c blanks ih =>
    rw [List.forall_mem_cons] at h
    rw [List.cons_append, go_blank h.1, ih h.2]

theorem go_word {w cs : List Char} (hw : ∀ c ∈ w, isBlank c = false ∧ isParen c = false) (hcs : Delimits cs)
    (done : List Char)
    : tokens.go (.word done) (w ++ cs) = String.ofList (done.reverse ++ w) :: tokens.go .between cs := by
  induction w generalizing done with
  | nil =>
    cases cs with
    | nil => simp [tokens.go]
    | cons c cs =>
      obtain hc | hc := hcs c rfl
      . rw [go_blank hc]
        simp [tokens.go, isParen_of_isBlank hc, hc]
      . rw [go_paren hc]
        simp [tokens.go, hc]
  | cons c w ih =>
    rw [List.forall_mem_cons] at hw
    have hgo : tokens.go (.word done) (c :: w ++ cs) = tokens.go (.word (c :: done)) (w ++ cs) := by
      simp [tokens.go, hw.1]
    rw [hgo, ih hw.2]
    simp

theorem go_token {t : String} {cs : List Char} (h : IsParenthesis t ∨ IsBare t ∧ Delimits cs)
    : tokens.go .between (t.toList ++ cs) = t :: tokens.go .between cs := by
  obtain h | ⟨⟨hne, hchars, hbar⟩, hcs⟩ := h
  . obtain ⟨c, rfl, hc⟩ := isParen_of_isParenthesis h
    rw [String.toList_singleton]
    exact go_paren hc cs
  . obtain ⟨c, w, hw⟩ := List.exists_cons_of_ne_nil (mt String.toList_eq_nil_iff.mp hne)
    rw [hw, List.forall_mem_cons] at hchars
    have hstart : c ≠ '|' := by
      rintro rfl
      exact hbar (by rw [hw]; rfl)
    have hgo : tokens.go .between (c :: (w ++ cs)) = tokens.go (.word [c]) (w ++ cs) := by
      simp [tokens.go, hchars.1, hstart]
    rw [hw, List.cons_append, hgo, go_word hchars.2 hcs, List.reverse_singleton, List.singleton_append, ← hw,
      String.ofList_toList]

theorem Spells.exists_append {text u : String} {ts : List String} (h : Spells text (u :: ts))
    : ∃ rest : String, text = u ++ rest := by
  cases h with
  | last => exact ⟨"", by simp⟩
  | cons _ _ _ => exact ⟨_, String.append_assoc⟩

-- After a bare atom comes a blank, a parenthesis or what follows the text, so that the atom ends there.
theorem Spells.go_append {text : String} {ts : List String} (h : Spells text ts)
    (hts : ∀ t ∈ ts, IsParenthesis t ∨ IsBare t) {cs : List Char} (hcs : Delimits cs)
    : tokens.go .between (text.toList ++ cs) = ts ++ tokens.go .between cs := by
  induction h with
  | last t =>
    exact go_token ((hts t List.mem_cons_self).imp_right fun ht => ⟨ht, hcs⟩)
  | @cons t u blanks text ts hblanks hgap h ih =>
    rw [List.forall_mem_cons] at hts
    have hdelimits : IsBare t → Delimits (blanks.toList ++ (text.toList ++ cs)) := by
      intro ht c hc
      cases hfirst : blanks.toList with
      | cons b bs =>
        rw [hfirst] at hc
        cases hc
        exact .inl (hblanks c (hfirst ▸ List.mem_cons_self))
      | nil =>
        have hu : IsParenthesis u := by
          rw [String.toList_eq_nil_iff] at hfirst
          exact (hgap.resolve_left (not_not_intro hfirst)).resolve_left ht.not_isParenthesis
        obtain ⟨rest, rfl⟩ := h.exists_append
        obtain ⟨p, rfl, hp⟩ := isParen_of_isParenthesis hu
        rw [hfirst, String.toList_append, String.toList_singleton] at hc
        cases hc
        exact .inr hp
    rw [String.toList_append, String.toList_append, List.append_assoc, List.append_assoc,
      go_token (hts.1.imp_right fun ht => ⟨ht, hdelimits ht⟩), go_blanks hblanks, ih hts.2]
    rfl

theorem Spells.append {text text' blanks : String} {ts us : List String} (h : Spells text ts) (h' : Spells text' us)
    (hblanks : ∀ c ∈ blanks.toList, isBlank c = true) (hgap : blanks ≠ "" ∨ ts = ["("] ∨ us = [")"])
    : Spells (text ++ blanks ++ text') (ts ++ us) := by
  induction h with
  | last t =>
    cases us with
    | nil => cases h'
    | cons u us =>
      refine .cons hblanks (hgap.imp_right (Or.imp ?_ ?_)) h'
      . intro ht
        exact .inl (List.singleton_inj.mp ht)
      . intro hu
        exact .inr (List.cons.inj hu).1
  | @cons t u blanks₀ text₀ _ hblanks₀ hgap₀ _ ih =>
    have htext : t ++ blanks₀ ++ text₀ ++ blanks ++ text' = t ++ blanks₀ ++ (text₀ ++ blanks ++ text') := by
      simp only [String.append_assoc]
    rw [htext]
    exact .cons hblanks₀ hgap₀ (ih (hgap.imp_right fun hgap => .inr (hgap.resolve_left (by simp))))

mutual

theorem spells_render (e : SExpr) : Spells e.render (lexemesOf e) := by
  cases e with
  | atom t => exact .last t
  | list items =>
    have hnone : ∀ c ∈ "".toList, isBlank c = true := List.forall_mem_nil _
    rw [render, lexemesOf]
    cases items with
    | nil => exact Spells.append (.last "(") (.last ")") hnone (.inr (.inl rfl))
    | cons e es =>
      have hitems := spells_renderAll (e :: es) (List.cons_ne_nil e es)
      have hopened := Spells.append (.last "(") hitems hnone (.inr (.inl rfl))
      simpa using hopened.append (.last ")") hnone (.inr (.inr rfl))

theorem spells_renderAll (es : List SExpr) (hes : es ≠ [])
    : Spells (" ".intercalate (renderAll es)) (lexemesOfAll es) := by
  cases es with
  | nil => exact absurd rfl hes
  | cons e es =>
    have he := spells_render e
    cases es with
    | nil => simpa [renderAll, lexemesOfAll] using he
    | cons e' es =>
      have hes := spells_renderAll (e' :: es) (List.cons_ne_nil e' es)
      have hspace : ∀ c ∈ " ".toList, isBlank c = true := by simp [isBlank]
      have happend := he.append hes hspace (.inl (by decide))
      rwa [renderAll, lexemesOfAll, String.intercalate_cons_of_ne_nil (by simp [renderAll])]

end

mutual

theorem mem_lexemesOf {t : String} (e : SExpr) (h : t ∈ lexemesOf e) : IsParenthesis t ∨ t ∈ e.atoms := by
  cases e with
  | atom u => exact .inr h
  | list es =>
    rw [lexemesOf, List.mem_cons, List.mem_append, List.mem_singleton] at h
    obtain h | h | h := h
    . exact .inl (.inl h)
    . exact mem_lexemesOfAll es h
    . exact .inl (.inr h)

theorem mem_lexemesOfAll {t : String} (es : List SExpr) (h : t ∈ lexemesOfAll es)
    : IsParenthesis t ∨ t ∈ atomsAll es := by
  cases es with
  | nil => cases h
  | cons e es =>
    rw [lexemesOfAll, List.mem_append] at h
    rw [atomsAll, List.mem_append]
    obtain h | h := h
    . exact (mem_lexemesOf e h).imp_right .inl
    . exact (mem_lexemesOfAll es h).imp_right .inr

end

/--
Go on after an expression, which belongs to the innermost open list, or is the result if none is open.
-/
def resume : List (List SExpr) → SExpr → Nat → List String → Option SExpr × Nat
  | [], e, pos, _ => (some e, pos)
  | items :: opened, e, pos, ts => parse.go ((e :: items) :: opened) pos ts

theorem parse_go_atom {t : String} (h : ¬IsParenthesis t) (opened : List (List SExpr)) (pos : Nat) (ts : List String)
    : parse.go opened pos (t :: ts) = resume opened (.atom t) (pos + 1) ts := by
  obtain ⟨hopen, hclose⟩ := not_or.mp h
  cases opened <;> simp [parse.go, resume, hopen, hclose]

theorem parse_go_open (opened : List (List SExpr)) (pos : Nat) (ts : List String)
    : parse.go opened pos ("(" :: ts) = parse.go ([] :: opened) (pos + 1) ts := by
  simp [parse.go]

theorem parse_go_close (items : List SExpr) (opened : List (List SExpr)) (pos : Nat) (ts : List String)
    : parse.go (items :: opened) pos (")" :: ts) = resume opened (.list items.reverse) (pos + 1) ts := by
  cases opened <;> simp [parse.go, resume]

mutual

theorem parse_go_lexemesOf (e : SExpr) (he : ∀ t ∈ e.atoms, ¬IsParenthesis t) (opened : List (List SExpr)) (pos : Nat)
    (ts : List String)
    : parse.go opened pos (lexemesOf e ++ ts) = resume opened e (pos + (lexemesOf e).length) ts := by
  cases e with
  | atom t => exact parse_go_atom (he t (by simp [atoms])) opened pos ts
  | list es =>
    unfold atoms at he
    have htokens : lexemesOf (.list es) ++ ts = "(" :: (lexemesOfAll es ++ ")" :: ts) := by simp [lexemesOf]
    have hlength : pos + (lexemesOf (.list es)).length = pos + 1 + (lexemesOfAll es).length + 1 := by
      simp only [lexemesOf, List.length_cons, List.length_append, List.length_nil]
      omega
    rw [htokens, hlength, parse_go_open, parse_go_lexemesOfAll es he, parse_go_close]
    simp

theorem parse_go_lexemesOfAll (es : List SExpr) (hes : ∀ t ∈ atomsAll es, ¬IsParenthesis t) (items : List SExpr)
    (opened : List (List SExpr)) (pos : Nat) (ts : List String)
    : parse.go (items :: opened) pos (lexemesOfAll es ++ ts) =
        parse.go ((es.reverse ++ items) :: opened) (pos + (lexemesOfAll es).length) ts := by
  cases es with
  | nil => rfl
  | cons e es =>
    unfold atomsAll at hes
    rw [List.forall_mem_append] at hes
    rw [lexemesOfAll, List.append_assoc, parse_go_lexemesOf e hes.1, resume, parse_go_lexemesOfAll es hes.2]
    simp [Nat.add_assoc]

end

theorem parse_go_position (opened : List (List SExpr)) (pos : Nat) (ts : List String)
    : pos ≤ (parse.go opened pos ts).2 ∧ (parse.go opened pos ts).2 ≤ pos + ts.length := by
  fun_induction parse.go opened pos ts with
  | case1 | case3 | case4 | case6 => simp
  | case2 _ _ _ ih | case5 _ _ _ _ _ _ ih | case7 _ _ _ _ _ _ _ ih =>
    rw [List.length_cons]
    omega

/--
An expression whose atoms are bare is read back from all texts that spell its tokens, of which its own text is one, with
blanks before them, and the position is then that of the first token of what follows. From whatever tokens, and whether
or not an expression is read, the position never goes back, nor past the end.
-/
theorem parse_inverts_layout
    : (∀ e : SExpr, (∀ t ∈ e.atoms, IsBare t) → Spells e.render (lexemesOf e) ∧
        ∀ blanks text rest, (∀ c ∈ blanks.toList, isBlank c = true) → Spells text (lexemesOf e) →
          Delimits rest.toList →
            tokens (blanks ++ text ++ rest) = lexemesOf e ++ tokens rest ∧
            parse (tokens (blanks ++ text ++ rest)) 0 = (some e, (lexemesOf e).length)) ∧
      ∀ ts pos, pos ≤ (parse ts pos).2 ∧ (parse ts pos).2 ≤ max pos ts.length := by
  constructor
  . intro e he
    refine ⟨spells_render e, ?_⟩
    intro blanks text rest hblanks htext hrest
    have htokens : tokens (blanks ++ text ++ rest) = lexemesOf e ++ tokens rest := by
      unfold tokens
      rw [String.toList_append, String.toList_append, List.append_assoc, go_blanks hblanks]
      exact htext.go_append (fun t ht => (mem_lexemesOf e ht).imp_right (he t)) hrest
    have hparse := parse_go_lexemesOf e (fun t ht => (he t ht).not_isParenthesis) [] 0 (tokens rest)
    rw [Nat.zero_add] at hparse
    rw [htokens]
    exact ⟨rfl, hparse⟩
  . intro ts pos
    have hposition := parse_go_position [] pos (ts.drop pos)
    rw [List.length_drop] at hposition
    unfold parse
    omega

-- Blanks stand between the atoms and elsewhere where they need not, and another list follows at once.
theorem parse_inverts_layout_nested
    : parse (tokens ("\n" ++ "((x\t-1) )" ++ "(y 2")) 0 = (some (.list [.list [.atom "x", .atom "-1"]]), 6) := by
  have hspells : Spells "((x\t-1) )" ["(", "(", "x", "-1", ")", ")"] := by
    have hnone : ∀ c ∈ "".toList, isBlank c = true := List.forall_mem_nil _
    have hclose := @Spells.cons ")" ")" " " _ _ (by simp [isBlank]) (.inr (.inl (.inr rfl))) (.last ")")
    have hnumber := @Spells.cons "-1" ")" "" _ _ hnone (.inr (.inr (.inr rfl))) hclose
    have hname := @Spells.cons "x" "-1" "\t" _ _ (by simp [isBlank]) (.inl (by decide)) hnumber
    have hopen := @Spells.cons "(" "x" "" _ _ hnone (.inr (.inl (.inl rfl))) hname
    exact @Spells.cons "(" "(" "" _ _ hnone (.inr (.inl (.inl rfl))) hopen
  have hbare : ∀ t ∈ (SExpr.list [.list [.atom "x", .atom "-1"]]).atoms, IsBare t := by decide
  have hrest : Delimits "(y 2".toList := by
    rintro _ ⟨⟩
    exact .inr rfl
  exact ((parse_inverts_layout.1 _ hbare).2 "\n" _ _ (by simp [isBlank]) hspells hrest).2

end SExpr
end GradedModal
