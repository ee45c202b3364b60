import Netconf.Path.Reading

/-!
# The grammar of paths

Which lists of tokens are written for which syntax trees, as derivations: `Written` for paths,
`Expression` for expressions of a level of operators, and one relation for every other phrase. A
derivation is about the whole list of its tokens, and says nothing about how they are read. What is
read from the front of a list of tokens is derived from what was taken off (`sound_reading` for
expressions, `written_of_parseTokens` for whole paths).
-/

namespace Netconf.Path

/-! ## Derivations -/

/-- A name, with a label in front of it or not. -/
inductive Qualified : List Token → Option String → String → Prop where
  /-- An atom. -/
  | plain (name : String) : Qualified [.atom name] none name
  /-- An atom with another one as its label. -/
  | labelled (label name : String) :
    Qualified [.atom label, .colon, .atom name] (some label) name

/-- The operators of each level, and the tokens they are written as. -/
inductive Joins : Nat → Token → BinaryOp → Prop where
  /-- Either; this binds least. -/
  | or : Joins 0 (.atom "or") .or
  /-- Both. -/
  | and : Joins 1 (.atom "and") .and
  /-- Equal. -/
  | eq : Joins 2 (.comparison .eq) (.compare .eq)
  /-- Not equal. -/
  | ne : Joins 2 (.comparison .ne) (.compare .ne)
  /-- Greater. -/
  | gt : Joins 3 (.comparison .gt) (.compare .gt)
  /-- Greater or equal. -/
  | ge : Joins 3 (.comparison .ge) (.compare .ge)
  /-- Less. -/
  | lt : Joins 3 (.comparison .lt) (.compare .lt)
  /-- Less or equal. -/
  | le : Joins 3 (.comparison .le) (.compare .le)
  /-- A sum. -/
  | plus : Joins 4 (.arithmetic .plus) .plus
  /-- A difference. -/
  | minus : Joins 4 (.arithmetic .minus) .minus

mutual

/-- An expression of a level: operands of the next level, joined from the left by the operators of
this one. Behind the levels of operators come signed operands. -/
inductive Expression : Nat → List Token → Expr → Prop where
  /-- An expression of the next level. -/
  | higher {level ts e} (hlevel : level < levels) (h : Expression (level + 1) ts e) :
    Expression level ts e
  /-- Two expressions joined by an operator. The right one is of the next level, so that operators
  of one level join from the left. -/
  | joined {level ts us l r t op} (hl : Expression level ts l) (ht : Joins level t op)
    (hr : Expression (level + 1) us r) : Expression level (ts ++ t :: us) (.binary op l r)
  /-- An operand behind a sign. -/
  | signed {ts e} (h : Expression levels ts e) :
    Expression levels (.arithmetic .minus :: ts) (.neg e)
  /-- An operand. -/
  | primary {ts e} (h : Primary ts e) : Expression levels ts e

/-- An operand. -/
inductive Primary : List Token → Expr → Prop where
  /-- An expression in brackets. -/
  | parens {ts e} (h : Expression 0 ts e) : Primary (.openParen :: ts ++ [.closeParen]) e
  /-- A text. -/
  | text (s) : Primary [.text s] (.literal (.text s))
  /-- An integer. -/
  | integer (i) : Primary [.integer i] (.literal (.integer i))
  /-- A number with a fraction. -/
  | decimal (x) : Primary [.decimal x] (.literal (.decimal x))
  /-- An attribute. -/
  | attribute (name) : Primary [.attribute name] (.attribute name)
  /-- A name. -/
  | child {ts label name} (h : Qualified ts label name) : Primary ts (.child label name)
  /-- The call of a function, with as many arguments as it takes. -/
  | call {f ts es} (h : Arguments ts es) (hcount : f.accepts es.length = true) :
    Primary (.atom f.name :: .openParen :: ts ++ [.closeParen]) (.call f es)

/-- The arguments of a call. -/
inductive Arguments : List Token → List Expr → Prop where
  /-- None. -/
  | none : Arguments [] []
  /-- Some. -/
  | some {ts es} (h : Expressions ts es) : Arguments ts es

/-- Expressions between commas. -/
inductive Expressions : List Token → List Expr → Prop where
  /-- One. -/
  | one {ts e} (h : Expression 0 ts e) : Expressions ts [e]
  /-- One, a comma, and the others. -/
  | more {ts us e es} (h : Expression 0 ts e) (hs : Expressions us es) :
    Expressions (ts ++ .comma :: us) (e :: es)

end

/-- Any number of pairs of square brackets with expressions between commas. -/
inductive Predicates : List Token → List Expr → Prop where
  /-- None. -/
  | nil : Predicates [] []
  /-- One pair of brackets, and the others. -/
  | cons {ts us es fs} (h : Expressions ts es) (hs : Predicates us fs) :
    Predicates (.openBracket :: ts ++ .closeBracket :: us) (es ++ fs)

/-- The axes that may be named, and their names. -/
inductive Named : String → Axis → Prop where
  /-- To the children. -/
  | child : Named "child" .child
  /-- To the node itself. -/
  | self : Named "self" .self
  /-- To the parent. -/
  | parent : Named "parent" .parent

/-- A step up to its predicates. -/
inductive Test : List Token → Step → Prop where
  /-- A dot. -/
  | self : Test [.dot] { axis := .self }
  /-- Two dots. -/
  | parent : Test [.dotDot] { axis := .parent }
  /-- A name. -/
  | child {ts label name} (h : Qualified ts label name) :
    Test ts { axis := .child, label, name := some name }
  /-- A name on an axis. -/
  | on {word axis ts label name} (ha : Named word axis) (h : Qualified ts label name) :
    Test (.atom word :: .colonColon :: ts) { axis, label, name := some name }

/-- Steps between slashes. -/
inductive Steps : List Token → List Step → Prop where
  /-- One step with its predicates. -/
  | one {ts us s es} (h : Test ts s) (hp : Predicates us es) :
    Steps (ts ++ us) [{ s with predicates := es }]
  /-- One step with its predicates, a slash, and the others. -/
  | more {ts us vs s es ss} (h : Test ts s) (hp : Predicates us es) (hs : Steps vs ss) :
    Steps (ts ++ us ++ .slash :: vs) ({ s with predicates := es } :: ss)

/-- A path. -/
inductive Written : List Token → List Step → Prop where
  /-- A single slash. -/
  | root : Written [.slash] [.toRoot]
  /-- Steps. -/
  | relative {ts ss} (h : Steps ts ss) : Written ts ss
  /-- Steps behind a slash. -/
  | absolute {ts ss} (h : Steps ts ss) : Written (.slash :: ts) (.toRoot :: ss)

/-! ## Words -/

/-- A token is read as an operator of a level when it is one. -/
theorem operator?_eq_some {level : Nat} {t : Token} {op : BinaryOp} :
    operator? level t = some op ↔ Joins level t op := by
  constructor
  · intro h
    unfold operator? at h
    split at h <;> cases h <;> constructor
  · rintro (_ | _) <;> rfl

/-- A token that is no operator of a level is not read as one. -/
theorem operator?_eq_none {level : Nat} {t : Token} (h : ∀ op, ¬ Joins level t op) :
    operator? level t = none := by
  cases hop : operator? level t with
  | none => rfl
  | some op => exact absurd (operator?_eq_some.1 hop) (h op)

/-- A token is an operator of one level only. -/
theorem Joins.level_eq {level level' : Nat} {t : Token} {op op' : BinaryOp}
    (h : Joins level t op) (h' : Joins level' t op') : level = level' := by
  rw [← operator?_eq_some] at h'
  unfold operator? at h'
  cases h <;> split at h' <;> simp_all

/-- Operators are on the levels of binary operators. -/
theorem Joins.lt_levels {level : Nat} {t : Token} {op : BinaryOp} (h : Joins level t op) :
    level < levels := by
  cases h <;> decide

/-- A word is read as an axis when it names one. -/
theorem axis?_eq_some {word : String} {axis : Axis} : axis? word = some axis ↔ Named word axis := by
  constructor
  · intro h
    unfold axis? at h
    split at h <;> cases h <;> constructor
  · rintro (_ | _) <;> rfl

/-- A function is found by its name. -/
theorem Function.ofName?_eq_some {word : String} {f : Function} :
    Function.ofName? word = some f ↔ word = f.name := by
  constructor
  · intro h
    unfold ofName? at h
    have hname := List.find?_some h
    exact (beq_iff_eq.1 hname).symm
  · rintro rfl
    cases f <;> decide

/-! ## What is read was written -/

/-- A name that is read was written. -/
theorem qualified_of_readQualified {ts rest : List Token} {label : Option String} {name : String}
    (h : readQualified ts = .ok ((label, name), rest)) :
    ∃ pre, ts = pre ++ rest ∧ Qualified pre label name := by
  unfold readQualified at h
  split at h
  · cases h
    exact ⟨_, rfl, .labelled _ _⟩
  · cases h
  · cases h
    exact ⟨_, rfl, .plain _⟩
  · cases h

/-- What the readers of expressions read in so many rounds is derived from the tokens that they take
off the front. -/
structure Sound (n : Nat) : Prop where
  /-- Expressions of a level. -/
  level {level ts e rest} (hlevel : level ≤ levels) (h : readLevel n level ts = .ok (e, rest)) :
    ∃ pre, ts = pre ++ rest ∧ Expression level pre e
  /-- What is joined to an expression that was derived already. -/
  joined {level ts us l e rest} (hlevel : level < levels) (hl : Expression level us l)
    (h : readJoined n level l ts = .ok (e, rest)) :
    ∃ pre, ts = pre ++ rest ∧ Expression level (us ++ pre) e
  /-- Operands. -/
  operand {ts e rest} (h : readOperand n ts = .ok (e, rest)) :
    ∃ pre, ts = pre ++ rest ∧ Primary pre e
  /-- Arguments, with the bracket behind them. -/
  arguments {ts es rest} (h : readArguments n ts = .ok (es, rest)) :
    ∃ pre, ts = pre ++ .closeParen :: rest ∧ Arguments pre es
  /-- Expressions between commas. -/
  list {ts es rest} (h : readList n ts = .ok (es, rest)) :
    ∃ pre, ts = pre ++ rest ∧ Expressions pre es

namespace Sound

variable {n : Nat}

/-- One more round for an expression of a level. -/
theorem succ_level (hn : Sound n) {level : Nat} {ts rest : List Token} {e : Expr}
    (hlevel : level ≤ levels) (h : readLevel (n + 1) level ts = .ok (e, rest)) :
    ∃ pre, ts = pre ++ rest ∧ Expression level pre e := by
  unfold readLevel at h
  split at h
  · next hlt =>
    split at h
    · cases h
    · next l us hread =>
      obtain ⟨pre, rfl, hpre⟩ := hn.level hlt hread
      obtain ⟨mid, rfl, hmid⟩ := hn.joined hlt (.higher hlt hpre) h
      exact ⟨pre ++ mid, by rw [List.append_assoc], hmid⟩
  · next hnlt =>
    obtain rfl : level = levels := by omega
    split at h
    · split at h
      · cases h
      · next e' us hread =>
        cases h
        obtain ⟨pre, rfl, hpre⟩ := hn.level (Nat.le_refl _) hread
        exact ⟨_, rfl, .signed hpre⟩
    · obtain ⟨pre, rfl, hpre⟩ := hn.operand h
      exact ⟨pre, rfl, .primary hpre⟩

/-- One more round for what is joined to an expression. -/
theorem succ_joined (hn : Sound n) {level : Nat} {ts us rest : List Token} {l e : Expr}
    (hlevel : level < levels) (hl : Expression level us l)
    (h : readJoined (n + 1) level l ts = .ok (e, rest)) :
    ∃ pre, ts = pre ++ rest ∧ Expression level (us ++ pre) e := by
  cases ts with
  | nil =>
    unfold readJoined at h
    cases h
    exact ⟨[], rfl, by rwa [List.append_nil]⟩
  | cons t ts =>
    unfold readJoined at h
    split at h
    · cases h
      exact ⟨[], rfl, by rwa [List.append_nil]⟩
    · next op hop =>
      split at h
      · cases h
      · next r vs hread =>
        obtain ⟨pre, rfl, hpre⟩ := hn.level hlevel hread
        obtain ⟨mid, rfl, hmid⟩ :=
          hn.joined hlevel (.joined hl (operator?_eq_some.1 hop) hpre) h
        refine ⟨t :: pre ++ mid, by simp, ?_⟩
        simpa using hmid

/-- One more round for an operand. -/
theorem succ_operand (hn : Sound n) {ts rest : List Token} {e : Expr}
    (h : readOperand (n + 1) ts = .ok (e, rest)) : ∃ pre, ts = pre ++ rest ∧ Primary pre e := by
  unfold readOperand at h
  split at h
  · split at h
    · cases h
    · next e' us hread =>
      cases h
      obtain ⟨pre, rfl, hpre⟩ := hn.level (Nat.zero_le _) hread
      exact ⟨_, by simp, .parens hpre⟩
    · cases h
  · cases h
    exact ⟨_, rfl, .text _⟩
  · cases h
    exact ⟨_, rfl, .integer _⟩
  · cases h
    exact ⟨_, rfl, .decimal _⟩
  · cases h
    exact ⟨_, rfl, .attribute _⟩
  · next name us =>
    split at h
    · cases h
    · next f hf =>
      split at h
      · cases h
      · next es vs hread =>
        split at h
        · next hcount =>
          cases h
          obtain rfl := Function.ofName?_eq_some.1 hf
          obtain ⟨pre, rfl, hpre⟩ := hn.arguments hread
          exact ⟨_, by simp, .call hpre hcount⟩
        · cases h
  · split at h
    · cases h
    · next label name us hread =>
      cases h
      obtain ⟨pre, rfl, hpre⟩ := qualified_of_readQualified hread
      exact ⟨pre, rfl, .child hpre⟩

/-- One more round for arguments. -/
theorem succ_arguments (hn : Sound n) {ts rest : List Token} {es : List Expr}
    (h : readArguments (n + 1) ts = .ok (es, rest)) :
    ∃ pre, ts = pre ++ .closeParen :: rest ∧ Arguments pre es := by
  unfold readArguments at h
  split at h
  · cases h
    exact ⟨[], rfl, .none⟩
  · split at h
    · cases h
    · next us hread =>
      cases h
      obtain ⟨pre, rfl, hpre⟩ := hn.list hread
      exact ⟨pre, rfl, .some hpre⟩
    · cases h

/-- One more round for expressions between commas. -/
theorem succ_list (hn : Sound n) {ts rest : List Token} {es : List Expr}
    (h : readList (n + 1) ts = .ok (es, rest)) : ∃ pre, ts = pre ++ rest ∧ Expressions pre es := by
  unfold readList at h
  split at h
  · cases h
  · next e us hread =>
    obtain ⟨pre, rfl, hpre⟩ := hn.level (Nat.zero_le _) hread
    split at h
    · cases h
    · next es' vs hlist =>
      cases h
      obtain ⟨mid, rfl, hmid⟩ := hn.list hlist
      exact ⟨_, by simp, .more hpre hmid⟩
  · next e us _ hread =>
    cases h
    obtain ⟨pre, rfl, hpre⟩ := hn.level (Nat.zero_le _) hread
    exact ⟨pre, rfl, .one hpre⟩

end Sound

/-- The readers of expressions are sound, however many rounds they have. -/
theorem sound_reading (n : Nat) : Sound n := by
  induction n with
  | zero =>
    constructor
    · intro level ts e rest _ h
      cases h
    · intro level ts us l e rest _ _ h
      cases h
    · intro ts e rest h
      cases h
    · intro ts es rest h
      cases h
    · intro ts es rest h
      cases h
  | succ n ih =>
    exact ⟨ih.succ_level, ih.succ_joined, ih.succ_operand, ih.succ_arguments, ih.succ_list⟩

/-- Predicates that are read were written. -/
theorem predicates_of_readPredicates {n : Nat} {ts rest : List Token} {es : List Expr}
    (h : readPredicates n ts = .ok (es, rest)) : ∃ pre, ts = pre ++ rest ∧ Predicates pre es := by
  induction n generalizing ts es with
  | zero => cases h
  | succ n ih =>
    unfold readPredicates at h
    split at h
    · cases h
    · next us hm =>
      cases hm
      split at h
      · cases h
      · next fs vs hread =>
        split at h
        · cases h
        · next gs ws hmore =>
          cases h
          obtain ⟨pre, rfl, hpre⟩ := (sound_reading _).list hread
          obtain ⟨mid, rfl, hmid⟩ := ih hmore
          exact ⟨_, by simp, .cons hpre hmid⟩
      · cases h
    · cases h
      exact ⟨[], rfl, .nil⟩

/-- A step that is read up to its predicates was written. -/
theorem test_of_readTest {ts rest : List Token} {s : Step} (h : readTest ts = .ok (s, rest)) :
    ∃ pre, ts = pre ++ rest ∧ Test pre s := by
  unfold readTest at h
  split at h
  · cases h
    exact ⟨_, rfl, .self⟩
  · cases h
    exact ⟨_, rfl, .parent⟩
  · split at h
    · cases h
    · next axis haxis =>
      split at h
      · cases h
      · next label name us hread =>
        cases h
        obtain ⟨pre, rfl, hpre⟩ := qualified_of_readQualified hread
        exact ⟨_, rfl, .on (axis?_eq_some.1 haxis) hpre⟩
  · split at h
    · cases h
    · next label name us hread =>
      cases h
      obtain ⟨pre, rfl, hpre⟩ := qualified_of_readQualified hread
      exact ⟨pre, rfl, .child hpre⟩

/-- A step that is read was written. -/
theorem test_of_readStep {ts rest : List Token} {s : Step} (h : readStep ts = .ok (s, rest)) :
    ∃ pre mid s' es, ts = pre ++ mid ++ rest ∧ Test pre s' ∧ Predicates mid es ∧
      s = { s' with predicates := es } := by
  unfold readStep at h
  split at h
  · cases h
  · next s' us hread =>
    split at h
    · cases h
    · next es vs hpred =>
      cases h
      obtain ⟨pre, rfl, hpre⟩ := test_of_readTest hread
      obtain ⟨mid, rfl, hmid⟩ := predicates_of_readPredicates hpred
      exact ⟨pre, mid, s', es, by rw [List.append_assoc], hpre, hmid, rfl⟩

/-- Steps that are read were written. -/
theorem steps_of_readSteps {n : Nat} {ts : List Token} {ss : List Step}
    (h : readSteps n ts = .ok ss) : Steps ts ss := by
  induction n generalizing ts ss with
  | zero => cases h
  | succ n ih =>
    unfold readSteps at h
    split at h
    · cases h
    · cases h
    · next m _ hm _ =>
      cases hm
      split at h
      · cases h
      · next s hread =>
        cases h
        obtain ⟨pre, mid, s', es, rfl, hpre, hmid, rfl⟩ := test_of_readStep hread
        rw [List.append_nil]
        exact .one hpre hmid
      · next s us hread =>
        split at h
        · cases h
        · next ss' hrest =>
          cases h
          obtain ⟨pre, mid, s', es, rfl, hpre, hmid, rfl⟩ := test_of_readStep hread
          exact .more hpre hmid (ih hrest)
      · cases h
      · cases h

/-- A path that is read was written. -/
theorem written_of_parseTokens {ts : List Token} {ss : List Step} (h : parseTokens ts = .ok ss) :
    Written ts ss := by
  unfold parseTokens at h
  split at h
  · cases h
  · cases h
    exact .root
  · split at h
    · cases h
    · next ss' hread =>
      cases h
      exact .absolute (steps_of_readSteps hread)
  · exact .relative (steps_of_readSteps h)

end Netconf.Path
