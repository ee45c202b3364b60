import Mathlib.Data.List.TakeWhile
import Netconf.Proofs.Path.Grammar

/-!
# The words of a path

What a syntax tree says about attributes and integers stands in its text: the names of attributes
consist of the characters of names, so that none declares a binding for a label, and integers are
without sign and fit into 64 bits (`sane_of_parse`).
-/

namespace Netconf.Path

/-! ## Tokens -/

/-- What every token that is read from a text keeps to. -/
def Token.Sane : Token → Prop
  | .attribute name => ∀ c ∈ name.toList, isNameChar c = true
  | .integer i => 0 ≤ i ∧ i ≤ Text.int64Max
  | _ => True

/-- An integer without sign that is read is none below zero. -/
theorem nonneg_of_int64? {cs : List Char} (hcs : ∀ c ∈ cs, isDigit c = true) {i : Int}
    (h : Text.int64? cs = some i) : 0 ≤ i ∧ i ≤ Text.int64Max := by
  unfold Text.int64? at h
  split at h
  · exact absurd (hcs '-' List.mem_cons_self) (by decide)
  · exact absurd (hcs '+' List.mem_cons_self) (by decide)
  · obtain ⟨n, -, hn⟩ := Option.bind_eq_some_iff.1 h
    simp only [Bool.false_eq_true, if_false, Text.fitsInt64, Bool.and_eq_true,
      decide_eq_true_eq] at hn
    obtain ⟨hfits, hi⟩ := Option.ite_none_right_eq_some.1 hn
    cases hi
    omega

/-- A number that is read keeps to it. -/
theorem sane_of_readNumber {cs rest : List Char} {token : Token}
    (h : readNumber cs = .ok (token, rest)) : token.Sane := by
  have hdigits : ∀ c ∈ cs.takeWhile isDigit, isDigit c = true := fun c hc =>
    List.mem_takeWhile_imp hc
  unfold readNumber at h
  dsimp only at h
  split at h
  · split at h
    · split at h
      · cases h
        trivial
      · cases h
    · split at h
      · next i hi =>
        cases h
        exact nonneg_of_int64? hdigits hi
      · cases h
  · split at h
    · next i hi =>
      cases h
      exact nonneg_of_int64? hdigits hi
    · cases h

/-- A sign that is read keeps to it. -/
theorem sane_of_readSign {cs rest : List Char} {token : Token}
    (h : readSign cs = .ok (token, rest)) : token.Sane := by
  unfold readSign at h
  split at h <;> cases h <;> trivial

/-- A token that is read keeps to it. -/
theorem sane_of_readToken {c : Char} {cs rest : List Char} {token : Token}
    (h : readToken c cs = .ok (token, rest)) : token.Sane := by
  unfold readToken at h
  split at h
  · cases h
    trivial
  split at h
  · cases h
    intro d hd
    rw [String.toList_ofList] at hd
    exact List.mem_takeWhile_imp hd
  split at h
  · unfold readQuoted at h
    dsimp only at h
    split at h <;> cases h
    trivial
  split at h
  · exact sane_of_readNumber h
  · exact sane_of_readSign h

/-- The tokens of a text keep to it. -/
theorem sane_of_tokensFor {rounds : Nat} {cs : List Char} {tokens : List Token}
    (h : tokensFor rounds cs = .ok tokens) : ∀ token ∈ tokens, token.Sane := by
  induction rounds generalizing cs tokens with
  | zero =>
    cases h
    simp
  | succ rounds ih =>
    cases cs with
    | nil =>
      cases h
      simp
    | cons c cs =>
      unfold tokensFor at h
      split at h
      · exact ih h
      split at h
      · cases h
      next hread =>
      split at h
      · cases h
      next hrest =>
      cases h
      exact List.forall_mem_cons.2 ⟨sane_of_readToken hread, ih hrest⟩

/-! ## Syntax trees -/

/-- An attribute or an integer that an expression names, signs and calls apart. -/
inductive Says (w : Token) : Expr → Prop where
  /-- An attribute. -/
  | attribute {name : String} (hw : w = .attribute name) : Says w (.attribute name)
  /-- An integer. -/
  | integer {i : Int} (hw : w = .integer i) : Says w (.literal (.integer i))
  /-- On the left of an operator. -/
  | left {op : BinaryOp} {l r : Expr} (h : Says w l) : Says w (.binary op l r)
  /-- On the right of an operator. -/
  | right {op : BinaryOp} {l r : Expr} (h : Says w r) : Says w (.binary op l r)

variable {w : Token} {ts : List Token}

mutual

/-- What an expression names stands in its tokens. -/
theorem Expression.mem_of_says {level : Nat} {ts : List Token} {e : Expr} :
    Expression level ts e → Says w e → w ∈ ts
  | .higher _ h, hw => h.mem_of_says hw
  | .joined hl _ _, .left hw => List.mem_append_left _ (hl.mem_of_says hw)
  | .joined _ _ hr, .right hw =>
    List.mem_append_right _ (List.mem_cons_of_mem _ (hr.mem_of_says hw))
  | .primary h, hw => h.mem_of_says hw

/-- What an operand names stands in its tokens. -/
theorem Primary.mem_of_says {ts : List Token} {e : Expr} : Primary ts e → Says w e → w ∈ ts
  | .parens h, hw => List.mem_append_left _ (List.mem_cons_of_mem _ (h.mem_of_says hw))
  | .integer _, .integer hw => List.mem_singleton.2 hw
  | .attribute _, .attribute hw => List.mem_singleton.2 hw

end

/-- What expressions between commas name stands in their tokens. -/
theorem Expressions.mem_of_says {es : List Expr} (h : Expressions ts es) {e : Expr} (he : e ∈ es)
    (hw : Says w e) : w ∈ ts := by
  induction es generalizing ts with
  | nil => cases he
  | cons f fs ih =>
    cases h with
    | one h =>
      cases List.mem_singleton.1 he
      exact h.mem_of_says hw
    | more h hs =>
      rcases List.mem_cons.1 he with rfl | he
      · exact List.mem_append_left _ (h.mem_of_says hw)
      · exact List.mem_append_right _ (List.mem_cons_of_mem _ (ih hs he))

/-- What predicates name stands in their tokens. -/
theorem Predicates.mem_of_says {es : List Expr} (h : Predicates ts es) {e : Expr} (he : e ∈ es)
    (hw : Says w e) : w ∈ ts := by
  induction h with
  | nil => cases he
  | cons h _ ih =>
    rcases List.mem_append.1 he with he | he
    · exact List.mem_append_left _ (List.mem_cons_of_mem _ (h.mem_of_says he hw))
    · exact List.mem_append_right _ (List.mem_cons_of_mem _ (ih he))

/-- What the predicates of steps name stands in their tokens. -/
theorem Steps.mem_of_says {ss : List Step} (h : Steps ts ss) {step : Step} (hstep : step ∈ ss)
    {e : Expr} (he : e ∈ step.predicates) (hw : Says w e) : w ∈ ts := by
  induction h with
  | one _ hp =>
    cases List.mem_singleton.1 hstep
    exact List.mem_append_right _ (hp.mem_of_says he hw)
  | more _ hp _ ih =>
    rcases List.mem_cons.1 hstep with rfl | hstep
    · exact List.mem_append_left _ (List.mem_append_right _ (hp.mem_of_says he hw))
    · exact List.mem_append_right _ (List.mem_cons_of_mem _ (ih hstep))

/-- What the predicates of a path name was read from its text. -/
theorem sane_of_parse {text : String} {p : Path} (hp : parse text = .ok p) {step : Step}
    (hstep : step ∈ p.steps) {e : Expr} (he : e ∈ step.predicates) (hw : Says w e) : w.Sane := by
  unfold parse at hp
  split at hp
  · cases hp
  next tokens htokens =>
  split at hp
  · cases hp
  next steps hsteps =>
  cases hp
  refine sane_of_tokensFor htokens w ?_
  cases written_of_parseTokens hsteps with
  | root =>
    cases List.mem_singleton.1 hstep
    cases he
  | relative h => exact h.mem_of_says hstep he hw
  | absolute h =>
    rcases List.mem_cons.1 hstep with rfl | hstep
    · cases he
    · exact List.mem_cons_of_mem _ (h.mem_of_says hstep he hw)

end Netconf.Path
