import Netconf.Proofs.Path.Grammar

/-!
# Reading what the grammar derives

A list of tokens is read as the syntax tree that the grammar derives for it, and so has one syntax
tree at most (`parseTokens_exact`). The readers of expressions take their rounds from a bound on the
recursion. What they return settles (`Settles`) when they have enough rounds, and `rounds` is enough
(`Enough`), so the bound never shows.

Derivations join operators from the left, while a reader first reads the leftmost operand and then
what is joined to it. So what is shown of an expression of a level is how the reading goes on behind
it (`Continues`): where the expression stands in front of other tokens, the reader comes to join
these to it.
-/

namespace Netconf.Path

/-! ## Results that settle -/

/-- With enough rounds, a computation has a result. -/
def Settles {α : Type} (f : Nat → α) (r : α) : Prop := ∃ n, ∀ m, n ≤ m → f m = r

section Settles

variable {α β γ : Type} {f : Nat → α} {g : Nat → β} {F : Nat → γ} {r : α} {s : β} {t : γ}

/-- A result that is there from the start. -/
theorem Settles.of_succ (h : ∀ n, F (n + 1) = t) : Settles F t :=
  ⟨1, fun m hm => by
    obtain ⟨k, rfl⟩ := Nat.exists_eq_add_of_le hm
    rw [Nat.add_comm]
    exact h k⟩

/-- There is one result at most. -/
theorem Settles.unique {r' : α} (h : Settles f r) (h' : Settles f r') : r = r' := by
  obtain ⟨n, hn⟩ := h
  obtain ⟨m, hm⟩ := h'
  rw [← hn (max n m) (by omega), hm (max n m) (by omega)]

/-- A result that takes one more round than another. -/
theorem Settles.step (h : Settles f r) (hF : ∀ n, f n = r → F (n + 1) = t) : Settles F t := by
  obtain ⟨n, hn⟩ := h
  refine ⟨n + 1, fun m hm => ?_⟩
  obtain ⟨k, rfl⟩ := Nat.exists_eq_add_of_le hm
  rw [show n + 1 + k = n + k + 1 by omega]
  exact hF _ (hn _ (by omega))

/-- A result that takes one more round than two others. -/
theorem Settles.step₂ (h : Settles f r) (h' : Settles g s)
    (hF : ∀ n, f n = r → g n = s → F (n + 1) = t) : Settles F t := by
  obtain ⟨n, hn⟩ := h
  obtain ⟨m, hm⟩ := h'
  have hboth : Settles (fun k => (f k, g k)) (r, s) :=
    ⟨max n m, fun k hk => Prod.ext (hn k (by omega)) (hm k (by omega))⟩
  exact hboth.step fun k hk => hF k (congrArg Prod.fst hk) (congrArg Prod.snd hk)

end Settles

/-! ## Where phrases begin and end -/

mutual

/-- An expression begins with a token that closes no brackets. -/
theorem Expression.exists_cons {level : Nat} {ts : List Token} {e : Expr} :
    Expression level ts e → ∃ t us, ts = t :: us ∧ t ≠ .closeParen
  | .higher _ h => h.exists_cons
  | .joined hl _ _ => by
    obtain ⟨t, us, rfl, ht⟩ := hl.exists_cons
    exact ⟨t, _, rfl, ht⟩
  | .signed _ => ⟨_, _, rfl, by simp⟩
  | .primary h => h.exists_cons

/-- An operand begins with a token that closes no brackets. -/
theorem Primary.exists_cons {ts : List Token} {e : Expr} :
    Primary ts e → ∃ t us, ts = t :: us ∧ t ≠ .closeParen
  | .parens _ => ⟨_, _, rfl, by simp⟩
  | .text _ => ⟨_, _, rfl, by simp⟩
  | .integer _ => ⟨_, _, rfl, by simp⟩
  | .decimal _ => ⟨_, _, rfl, by simp⟩
  | .attribute _ => ⟨_, _, rfl, by simp⟩
  | .child (.plain _) => ⟨_, _, rfl, by simp⟩
  | .child (.labelled _ _) => ⟨_, _, rfl, by simp⟩
  | .call _ _ => ⟨_, _, rfl, by simp⟩

end

/-- So do expressions between commas. -/
theorem Expressions.exists_cons {ts : List Token} {es : List Expr} (h : Expressions ts es) :
    ∃ t us, ts = t :: us ∧ t ≠ .closeParen := by
  cases h with
  | one h => exact h.exists_cons
  | more h _ =>
    obtain ⟨t, us, rfl, ht⟩ := h.exists_cons
    exact ⟨t, _, rfl, ht⟩

/-- Tokens with which neither a name nor what operators of a level or a later one join goes on. -/
def Stops (level : Nat) (rest : List Token) : Prop :=
  ∀ t ∈ rest.head?, t ≠ .colon ∧ t ≠ .openParen ∧ ∀ k, level ≤ k → operator? k t = none

variable {level : Nat} {ts us rest : List Token} {t : Token} {e : Expr} {es : List Expr}

/-- What stops more operators stops fewer. -/
theorem Stops.mono {level' : Nat} (h : Stops level rest) (hle : level ≤ level') :
    Stops level' rest := fun t ht =>
  ⟨(h t ht).1, (h t ht).2.1, fun k hk => (h t ht).2.2 k (by omega)⟩

/-- Tokens that begin with none of those that expressions go on with. -/
theorem stops_cons (hcolon : t ≠ .colon) (hparen : t ≠ .openParen)
    (h : ∀ k op, level ≤ k → ¬ Joins k t op) : Stops level (t :: rest) := by
  intro u hu
  obtain rfl : t = u := Option.some.inj hu
  exact ⟨hcolon, hparen, fun k hk => operator?_eq_none fun op => h k op hk⟩

/-- An operator stops those of the later levels. -/
theorem Joins.stops {op : BinaryOp} (h : Joins level t op) : Stops (level + 1) (t :: rest) := by
  refine stops_cons ?_ ?_ fun k op' hk h' => ?_
  · cases h <;> simp
  · cases h <;> simp
  · have hsame := h.level_eq h'
    omega

/-- A round bracket that closes stops all operators. -/
theorem stops_closeParen (rest : List Token) : Stops 0 (.closeParen :: rest) :=
  stops_cons (by simp) (by simp) fun _ _ _ h => nomatch h

/-- So does a square bracket. -/
theorem stops_closeBracket (rest : List Token) : Stops 0 (.closeBracket :: rest) :=
  stops_cons (by simp) (by simp) fun _ _ _ h => nomatch h

/-- So does a comma. -/
theorem stops_comma (rest : List Token) : Stops 0 (.comma :: rest) :=
  stops_cons (by simp) (by simp) fun _ _ _ h => nomatch h

/-! ## What is written is read -/

/-- A name is read, unless a colon behind it makes it a label. -/
theorem Qualified.read {label : Option String} {name : String} (h : Qualified ts label name)
    (hrest : ∀ t ∈ rest.head?, t ≠ .colon) :
    readQualified (ts ++ rest) = .ok ((label, name), rest) := by
  cases h with
  | labelled label name => rfl
  | plain name =>
    cases rest with
    | nil => rfl
    | cons t rest =>
      have hcolon := hrest t rfl
      cases t with
      | colon => exact absurd rfl hcolon
      | _ => rfl

/-- A name is an operand, unless a bracket behind it makes it a call. -/
theorem Qualified.readOperand_eq {label : Option String} {name : String}
    (h : Qualified ts label name) (hrest : ∀ t ∈ rest.head?, t ≠ .colon ∧ t ≠ .openParen)
    (n : Nat) : readOperand (n + 1) (ts ++ rest) = .ok (.child label name, rest) := by
  cases h with
  | labelled label name => rfl
  | plain name =>
    cases rest with
    | nil => rfl
    | cons t rest =>
      have hnext := hrest t rfl
      cases t with
      | colon => exact absurd rfl hnext.1
      | openParen => exact absurd rfl hnext.2
      | _ => rfl

/-- Where no operator of a level follows, nothing is joined to an expression. -/
theorem Stops.settles_joined (h : Stops level rest) (e : Expr) :
    Settles (fun n => readJoined n level e rest) (.ok (e, rest)) := by
  refine .of_succ fun n => ?_
  unfold readJoined
  cases rest with
  | nil => rfl
  | cons t rest => simp only [(h t rfl).2.2 level (Nat.le_refl _)]

/-- Behind the levels of operators nothing is joined. -/
theorem settles_joined_levels (e : Expr) (rest : List Token) :
    Settles (fun n => readJoined n levels e rest) (.ok (e, rest)) := by
  have hnone : ∀ t, operator? levels t = none := fun t =>
    operator?_eq_none fun op hop => absurd hop.lt_levels (Nat.lt_irrefl _)
  refine .of_succ fun n => ?_
  unfold readJoined
  cases rest with
  | nil => rfl
  | cons t rest => simp only [hnone]

/-- An operand is no sign, so the last level reads it as an operand. -/
theorem Primary.readLevel_eq (h : Primary ts e) (n : Nat) :
    readLevel (n + 1) levels (ts ++ rest) = readOperand n (ts ++ rest) := by
  unfold readLevel
  rw [if_neg (Nat.lt_irrefl _)]
  cases h with
  | child h => cases h <;> rfl
  | _ => rfl

mutual

/-- When an expression of a level was written in front of other tokens, the reader of the level
comes to join these tokens to the expression. -/
theorem Expression.continues {level : Nat} {ts rest : List Token} {e : Expr}
    {r : Except PathError (Expr × List Token)} : Expression level ts e → Stops (level + 1) rest →
      Settles (fun n => readJoined n level e rest) r →
        Settles (fun n => readLevel n level (ts ++ rest)) r
  | .higher hlevel h, hrest, hr => by
    have hread := h.continues (hrest.mono (Nat.le_succ _)) (hrest.settles_joined e)
    refine hread.step₂ hr fun n hread hr => ?_
    unfold readLevel
    rw [if_pos hlevel, hread]
    exact hr
  | .joined hl ht hr', hrest, hr => by
    have hright := hr'.continues (hrest.mono (Nat.le_succ _)) (hrest.settles_joined _)
    rw [List.append_assoc, List.cons_append]
    refine hl.continues ht.stops (hright.step₂ hr fun n hright hr => ?_)
    unfold readJoined
    simp only [operator?_eq_some.2 ht, hright]
    exact hr
  | .signed h, hrest, hr => by
    obtain rfl := hr.unique (settles_joined_levels _ rest)
    refine (h.continues hrest (settles_joined_levels _ rest)).step fun n hread => ?_
    unfold readLevel
    rw [if_neg (Nat.lt_irrefl _)]
    simp only [List.cons_append, hread]
  | .primary h, hrest, hr => by
    obtain rfl := hr.unique (settles_joined_levels _ rest)
    refine (h.settles hrest).step fun n hread => ?_
    rw [h.readLevel_eq, hread]

/-- An operand is read, unless a colon or a bracket behind it makes a name something else. -/
theorem Primary.settles {ts rest : List Token} {e : Expr} : Primary ts e →
    Stops (levels + 1) rest → Settles (fun n => readOperand n (ts ++ rest)) (.ok (e, rest))
  | .parens (e := e) h, _ => by
    have hread := h.continues ((stops_closeParen rest).mono (Nat.zero_le _))
      ((stops_closeParen rest).settles_joined e)
    refine hread.step fun n hread => ?_
    rw [List.append_assoc, List.cons_append, readOperand]
    simp only [List.singleton_append, hread]
  | .text _, _ => .of_succ fun _ => rfl
  | .integer _, _ => .of_succ fun _ => rfl
  | .decimal _, _ => .of_succ fun _ => rfl
  | .attribute _, _ => .of_succ fun _ => rfl
  | .child h, hrest =>
    .of_succ (h.readOperand_eq fun t ht => ⟨(hrest t ht).1, (hrest t ht).2.1⟩)
  | .call h hcount, _ => by
    refine (h.settles rest).step fun n hread => ?_
    unfold readOperand
    simp only [List.cons_append, List.append_assoc, List.nil_append,
      Function.ofName?_eq_some.2 rfl, hread, if_pos hcount]

/-- The arguments of a call are read with the bracket behind them. -/
theorem Arguments.settles {ts : List Token} {es : List Expr} (rest : List Token) :
    Arguments ts es →
      Settles (fun n => readArguments n (ts ++ .closeParen :: rest)) (.ok (es, rest))
  | .none => .of_succ fun _ => rfl
  | .some h => by
    have hread := h.settles (stops_closeParen rest) (by simp)
    refine hread.step fun n hread => ?_
    unfold readArguments
    split
    · next us heq =>
      obtain ⟨t, vs, rfl, ht⟩ := h.exists_cons
      exact absurd (List.cons.inj heq).1 ht
    · simp only [hread]

/-- Expressions between commas are read, unless one more comma follows. -/
theorem Expressions.settles {ts rest : List Token} {es : List Expr} : Expressions ts es →
    Stops 0 rest → (∀ t ∈ rest.head?, t ≠ .comma) →
      Settles (fun n => readList n (ts ++ rest)) (.ok (es, rest))
  | .one h, hrest, hcomma => by
    have hread := h.continues (hrest.mono (Nat.zero_le _)) (hrest.settles_joined _)
    refine hread.step fun n hread => ?_
    unfold readList
    simp only [hread]
    cases rest with
    | nil => rfl
    | cons t rest =>
      have ht := hcomma t rfl
      cases t with
      | comma => exact absurd rfl ht
      | _ => rfl
  | @Expressions.more _ us _ _ h hs, hrest, hcomma => by
    have hread := h.continues ((stops_comma (us ++ rest)).mono (Nat.zero_le _))
      ((stops_comma _).settles_joined _)
    refine hread.step₂ (hs.settles hrest hcomma) fun n hread hlist => ?_
    unfold readList
    simp only [List.append_assoc, List.cons_append, hread, hlist]

end

/-! ## Enough rounds -/

/-- What is left behind an expression is shorter. -/
theorem length_lt_of_readLevel {n : Nat} (hlevel : level ≤ levels)
    (h : readLevel n level ts = .ok (e, rest)) : rest.length < ts.length := by
  obtain ⟨pre, rfl, hpre⟩ := (sound_reading n).level hlevel h
  obtain ⟨t, us, rfl, -⟩ := hpre.exists_cons
  simp only [List.length_append, List.length_cons]
  omega

/-- With so many rounds, the readers of expressions return what they return with more. Ten rounds
for a token are more than pass from one token to the next: through all levels, to the operand, and
through the list of arguments. -/
structure Enough (n : Nat) : Prop where
  /-- Expressions of a level. -/
  level {level ts m} (hlevel : level ≤ levels)
    (hn : 10 * ts.length + (levels - level) + 2 ≤ n) (hm : n ≤ m) :
    readLevel m level ts = readLevel n level ts
  /-- What is joined to an expression. -/
  joined {level ts e m} (hlevel : level < levels) (hn : 10 * ts.length + 1 ≤ n) (hm : n ≤ m) :
    readJoined m level e ts = readJoined n level e ts
  /-- Operands. -/
  operand {ts m} (hn : 10 * ts.length + 1 ≤ n) (hm : n ≤ m) : readOperand m ts = readOperand n ts
  /-- Arguments. -/
  arguments {ts m} (hn : 10 * ts.length + 9 ≤ n) (hm : n ≤ m) :
    readArguments m ts = readArguments n ts
  /-- Expressions between commas. -/
  list {ts m} (hn : 10 * ts.length + 8 ≤ n) (hm : n ≤ m) : readList m ts = readList n ts

namespace Enough

variable {n m : Nat}

/-- One more round for an expression of a level. -/
theorem succ_level (h : Enough n) (hlevel : level ≤ levels)
    (hn : 10 * ts.length + (levels - level) + 2 ≤ n + 1) (hm : n ≤ m) :
    readLevel (m + 1) level ts = readLevel (n + 1) level ts := by
  unfold readLevel
  split
  · next hlt =>
    rw [h.level hlt (by omega) hm]
    cases hread : readLevel n (level + 1) ts with
    | error => rfl
    | ok r =>
      have hshort := length_lt_of_readLevel hlt hread
      exact h.joined hlt (by omega) hm
  · split
    · next us =>
      rw [List.length_cons] at hn
      rw [h.level hlevel (by omega) hm]
    · exact h.operand (by omega) hm

/-- One more round for what is joined to an expression. -/
theorem succ_joined (h : Enough n) (hlevel : level < levels) (hn : 10 * ts.length + 1 ≤ n + 1)
    (hm : n ≤ m) : readJoined (m + 1) level e ts = readJoined (n + 1) level e ts := by
  unfold readJoined
  cases ts with
  | nil => rfl
  | cons t ts =>
    rw [List.length_cons] at hn
    dsimp only
    split
    · rfl
    · have hle : levels - (level + 1) ≤ 4 := by unfold levels; omega
      rw [h.level hlevel (by omega) hm]
      cases hread : readLevel n (level + 1) ts with
      | error => rfl
      | ok r =>
        have hshort := length_lt_of_readLevel hlevel hread
        exact h.joined hlevel (by omega) hm

/-- One more round for an operand. -/
theorem succ_operand (h : Enough n) (hn : 10 * ts.length + 1 ≤ n + 1) (hm : n ≤ m) :
    readOperand (m + 1) ts = readOperand (n + 1) ts := by
  unfold readOperand
  split
  · rw [List.length_cons] at hn
    rw [h.level (Nat.zero_le _) (by unfold levels; omega) hm]
  · rfl
  · rfl
  · rfl
  · rfl
  · rw [List.length_cons, List.length_cons] at hn
    split
    · rfl
    · rw [h.arguments (by omega) hm]
  · rfl

/-- One more round for arguments. -/
theorem succ_arguments (h : Enough n) (hn : 10 * ts.length + 9 ≤ n + 1) (hm : n ≤ m) :
    readArguments (m + 1) ts = readArguments (n + 1) ts := by
  unfold readArguments
  split
  · rfl
  · rw [h.list (by omega) hm]

/-- One more round for expressions between commas. -/
theorem succ_list (h : Enough n) (hn : 10 * ts.length + 8 ≤ n + 1) (hm : n ≤ m) :
    readList (m + 1) ts = readList (n + 1) ts := by
  unfold readList
  rw [h.level (Nat.zero_le _) (by unfold levels; omega) hm]
  cases hread : readLevel n 0 ts with
  | error => rfl
  | ok r =>
    have hshort := length_lt_of_readLevel (Nat.zero_le _) hread
    obtain ⟨e, us⟩ := r
    cases us with
    | nil => rfl
    | cons t us =>
      rw [List.length_cons] at hshort
      cases t with
      | comma =>
        dsimp only
        rw [h.list (by omega) hm]
      | _ => rfl

end Enough

/-- Every number of rounds is enough for the lists of tokens that it is meant for. -/
theorem enough_rounds (n : Nat) : Enough n := by
  induction n with
  | zero =>
    constructor
    all_goals omega
  | succ n ih =>
    have hsucc : ∀ {m}, n + 1 ≤ m → ∃ k, m = k + 1 ∧ n ≤ k := fun {m} hm =>
      ⟨m - 1, by omega, by omega⟩
    constructor
    · intro level ts m hlevel hn hm
      obtain ⟨k, rfl, hk⟩ := hsucc hm
      exact ih.succ_level hlevel hn hk
    · intro level ts e m hlevel hn hm
      obtain ⟨k, rfl, hk⟩ := hsucc hm
      exact ih.succ_joined hlevel hn hk
    · intro ts m hn hm
      obtain ⟨k, rfl, hk⟩ := hsucc hm
      exact ih.succ_operand hn hk
    · intro ts m hn hm
      obtain ⟨k, rfl, hk⟩ := hsucc hm
      exact ih.succ_arguments hn hk
    · intro ts m hn hm
      obtain ⟨k, rfl, hk⟩ := hsucc hm
      exact ih.succ_list hn hk

/-- More rounds than are taken make no difference to what is read. -/
theorem readList_of_rounds_le {n : Nat} (hn : rounds ts ≤ n) :
    readList n ts = readList (rounds ts) ts :=
  (enough_rounds _).list (by unfold rounds; omega) hn

/-- Expressions between commas are read in the rounds that are taken for them. -/
theorem Expressions.read (h : Expressions ts es) (hrest : Stops 0 rest)
    (hcomma : ∀ t ∈ rest.head?, t ≠ .comma) :
    readList (rounds (ts ++ rest)) (ts ++ rest) = .ok (es, rest) := by
  obtain ⟨n, hn⟩ := h.settles hrest hcomma
  rw [← readList_of_rounds_le (Nat.le_max_right n _)]
  exact hn _ (Nat.le_max_left _ _)

/-! ## Steps and paths -/

/-- Predicates begin with a bracket. -/
theorem Predicates.head (h : Predicates us es) : ∀ t ∈ us.head?, t = .openBracket := by
  cases h with
  | nil => simp
  | cons => simp

/-- Predicates are read as long as no bracket opens another one. -/
theorem Predicates.read (h : Predicates us es) (hrest : ∀ t ∈ rest.head?, t ≠ .openBracket)
    {n : Nat} (hn : us.length < n) : readPredicates n (us ++ rest) = .ok (es, rest) := by
  induction h generalizing n with
  | nil =>
    obtain ⟨n, rfl⟩ := Nat.exists_eq_succ_of_ne_zero (Nat.ne_of_gt hn)
    rw [List.nil_append]
    unfold readPredicates
    cases rest with
    | nil => rfl
    | cons t rest =>
      have ht := hrest t rfl
      cases t with
      | openBracket => exact absurd rfl ht
      | _ => rfl
  | @cons ts us es fs h _ ih =>
    obtain ⟨n, rfl⟩ := Nat.exists_eq_succ_of_ne_zero (Nat.ne_of_gt (Nat.zero_lt_of_lt hn))
    simp only [List.cons_append, List.length_cons, List.length_append] at hn
    have hread := h.read (stops_closeBracket (us ++ rest)) (by simp)
    unfold readPredicates
    simp only [List.cons_append, List.append_assoc, hread, ih (n := n) (by omega)]

/-- More rounds than there are tokens make no difference to the predicates that are read. -/
theorem readPredicates_of_lt {n m : Nat} (hn : ts.length < n) (hm : n ≤ m) :
    readPredicates m ts = readPredicates n ts := by
  induction n generalizing m ts with
  | zero => omega
  | succ n ih =>
    obtain ⟨m, rfl⟩ := Nat.exists_eq_succ_of_ne_zero (Nat.ne_of_gt (Nat.zero_lt_of_lt hm))
    cases ts with
    | nil => rfl
    | cons t us =>
      cases t with
      | openBracket =>
        unfold readPredicates
        cases hread : readList (rounds us) us with
        | error => rfl
        | ok r =>
          obtain ⟨fs, vs⟩ := r
          obtain ⟨pre, rfl, -⟩ := (sound_reading _).list hread
          rw [List.length_cons, List.length_append] at hn
          cases vs with
          | nil => rfl
          | cons t vs =>
            rw [List.length_cons] at hn
            cases t with
            | closeBracket =>
              dsimp only
              rw [ih (by omega) (Nat.le_of_succ_le_succ hm)]
            | _ => rfl
      | _ => rfl

/-- A step begins with a dot, two dots or an atom. -/
theorem Test.exists_cons {s : Step} (h : Test ts s) :
    ∃ t us, ts = t :: us ∧ t ≠ .slash ∧ t ≠ .slashSlash := by
  cases h with
  | child h => cases h <;> exact ⟨_, _, rfl, by simp⟩
  | _ => exact ⟨_, _, rfl, by simp⟩

/-- A step is read up to its predicates, unless a colon behind it makes a name something else. -/
theorem Test.read {s : Step} (h : Test ts s)
    (hrest : ∀ t ∈ rest.head?, t ≠ .colon ∧ t ≠ .colonColon) :
    readTest (ts ++ rest) = .ok (s, rest) := by
  cases h with
  | self => rfl
  | parent => rfl
  | child h =>
    cases h with
    | labelled label name => rfl
    | plain name =>
      cases rest with
      | nil => rfl
      | cons t rest =>
        have hnext := hrest t rfl
        cases t with
        | colon => exact absurd rfl hnext.1
        | colonColon => exact absurd rfl hnext.2
        | _ => rfl
  | on ha h =>
    have hread := h.read fun t ht => (hrest t ht).1
    unfold readTest
    simp only [List.cons_append, axis?_eq_some.2 ha, hread]

/-- A step is read in front of a slash and at the end. -/
theorem Test.readStep_eq {s : Step} (h : Test ts s) (hp : Predicates us es)
    (hrest : ∀ t ∈ rest.head?, t = .slash) :
    readStep (ts ++ us ++ rest) = .ok ({ s with predicates := es }, rest) := by
  have hnext : ∀ t ∈ (us ++ rest).head?, t ≠ .colon ∧ t ≠ .colonColon := by
    intro t ht
    cases us with
    | nil =>
      obtain rfl := hrest t ht
      simp
    | cons u us =>
      obtain rfl := hp.head t ht
      simp
  have htest := h.read hnext
  have hpredicates : readPredicates ((us ++ rest).length + 1) (us ++ rest) = .ok (es, rest) :=
    hp.read (fun t ht => by rw [hrest t ht]; simp) (by rw [List.length_append]; omega)
  unfold readStep
  rw [List.append_assoc]
  simp only [htest, hpredicates]

/-- Steps are read by reading the first step and then, behind a slash, the others. -/
theorem readSteps_succ (h : ∀ us, ts ≠ .slashSlash :: us) (n : Nat) :
    readSteps (n + 1) ts =
      match readStep ts with
      | .error e => .error e
      | .ok (step, []) => .ok [step]
      | .ok (step, .slash :: rest) =>
        match readSteps n rest with
        | .error e => .error e
        | .ok steps => .ok (step :: steps)
      | .ok (_, .slashSlash :: _) => .error descendantAxis
      | .ok (_, rest) => .error (.unexpected rest) := by
  cases ts with
  | nil => rfl
  | cons t us =>
    cases t with
    | slashSlash => exact absurd rfl (h us)
    | _ => rfl

/-- Steps begin with no slash. -/
theorem Steps.exists_cons {ss : List Step} (h : Steps ts ss) :
    ∃ t us, ts = t :: us ∧ t ≠ .slash ∧ t ≠ .slashSlash := by
  cases h with
  | one h =>
    obtain ⟨t, us, rfl, ht⟩ := h.exists_cons
    exact ⟨t, _, rfl, ht⟩
  | more h =>
    obtain ⟨t, us, rfl, ht⟩ := h.exists_cons
    exact ⟨t, _, rfl, ht⟩

/-- So they begin with no two slashes in one. -/
theorem Steps.not_slashSlash {ss : List Step} (h : Steps ts ss) (us : List Token) :
    ts ≠ .slashSlash :: us := by
  obtain ⟨t, vs, rfl, -, ht⟩ := h.exists_cons
  exact fun heq => ht (List.cons.inj heq).1

/-- Steps are read up to the end. -/
theorem Steps.read {ss : List Step} (h : Steps ts ss) {n : Nat} (hn : ts.length < n) :
    readSteps n ts = .ok ss := by
  induction h generalizing n with
  | @one ts us s es h hp =>
    obtain ⟨n, rfl⟩ := Nat.exists_eq_succ_of_ne_zero (Nat.ne_of_gt (Nat.zero_lt_of_lt hn))
    have hstep : readStep (ts ++ us ++ []) = .ok ({ s with predicates := es }, []) :=
      h.readStep_eq hp (by simp)
    rw [List.append_nil] at hstep
    rw [readSteps_succ (Steps.one h hp).not_slashSlash, hstep]
  | @more ts us vs s es ss h hp hs ih =>
    obtain ⟨n, rfl⟩ := Nat.exists_eq_succ_of_ne_zero (Nat.ne_of_gt (Nat.zero_lt_of_lt hn))
    have hstep : readStep (ts ++ us ++ .slash :: vs)
        = .ok ({ s with predicates := es }, .slash :: vs) := h.readStep_eq hp (by simp)
    simp only [List.length_append, List.length_cons] at hn
    rw [readSteps_succ (Steps.more h hp hs).not_slashSlash, hstep]
    simp only [ih (n := n) (by omega)]

/-- More rounds than there are tokens make no difference to the steps that are read. -/
theorem readSteps_of_lt {n m : Nat} (hn : ts.length < n) (hm : n ≤ m) :
    readSteps m ts = readSteps n ts := by
  induction n generalizing m ts with
  | zero => omega
  | succ n ih =>
    obtain ⟨m, rfl⟩ := Nat.exists_eq_succ_of_ne_zero (Nat.ne_of_gt (Nat.zero_lt_of_lt hm))
    by_cases hslash : ∃ us, ts = .slashSlash :: us
    · obtain ⟨us, rfl⟩ := hslash
      rfl
    · have hslash : ∀ us, ts ≠ .slashSlash :: us := fun us heq => hslash ⟨us, heq⟩
      rw [readSteps_succ hslash, readSteps_succ hslash]
      cases hread : readStep ts with
      | error => rfl
      | ok r =>
        obtain ⟨s, us⟩ := r
        obtain ⟨pre, mid, s', es, rfl, -⟩ := test_of_readStep hread
        simp only [List.length_append] at hn
        cases us with
        | nil => rfl
        | cons t us =>
          rw [List.length_cons] at hn
          cases t with
          | slash =>
            dsimp only
            rw [ih (by omega) (Nat.le_of_succ_le_succ hm)]
          | _ => rfl

/-- A path that was written is read. -/
theorem Written.read {ss : List Step} (h : Written ts ss) : parseTokens ts = .ok ss := by
  cases h with
  | root => rfl
  | relative h =>
    have hread := h.read (Nat.lt_succ_self _)
    obtain ⟨t, us, rfl, ht, -⟩ := h.exists_cons
    unfold parseTokens
    cases t with
    | slash => exact absurd rfl ht
    | _ => exact hread
  | absolute h =>
    have hread := h.read (Nat.lt_succ_self _)
    obtain ⟨t, us, rfl, -⟩ := h.exists_cons
    unfold parseTokens
    simp only [hread]

/-- Paths are read exactly as the grammar derives them: a list of tokens is read as a list of steps
if and only if it is written for them, so that it is written for one list of steps at most. All
tokens are read, and no reading is cut short by the number of its rounds. -/
theorem parseTokens_exact (ts : List Token) :
    (∀ ss, parseTokens ts = .ok ss ↔ Written ts ss) ∧
      (∀ ss ss', Written ts ss → Written ts ss' → ss = ss') ∧
      ∀ n, readList (rounds ts + n) ts = readList (rounds ts) ts ∧
        readPredicates (ts.length + 1 + n) ts = readPredicates (ts.length + 1) ts ∧
        readSteps (ts.length + 1 + n) ts = readSteps (ts.length + 1) ts := by
  refine ⟨fun ss => ⟨written_of_parseTokens, Written.read⟩, fun ss ss' h h' => ?_, fun n => ?_⟩
  · exact Except.ok.inj (h.read.symm.trans h'.read)
  · exact ⟨readList_of_rounds_le (Nat.le_add_right _ _),
      readPredicates_of_lt (Nat.lt_succ_self _) (Nat.le_add_right _ _),
      readSteps_of_lt (Nat.lt_succ_self _) (Nat.le_add_right _ _)⟩

/-- The path `/or[or or count(a) = 1, b]`, in which one word is a name and an operator, has the
syntax tree that it is read as and no other. -/
theorem parseTokens_exact_keywords :
    let ts : List Token := [.slash, .atom "or", .openBracket, .atom "or", .atom "or",
      .atom "count", .openParen, .atom "a", .closeParen, .comparison .eq, .integer 1, .comma,
      .atom "b", .closeBracket]
    let ss : List Step := [.toRoot, { axis := .child, name := some "or", predicates := [
      .binary .or (.child none "or")
        (.binary (.compare .eq) (.call .count [.child none "a"]) (.literal (.integer 1))),
      .child none "b"] }]
    Written ts ss ∧ ∀ ss', Written ts ss' → ss = ss' := by
  intro ts ss
  obtain ⟨hread, hunique, -⟩ := parseTokens_exact ts
  have hwritten : Written ts ss := (hread ss).1 rfl
  exact ⟨hwritten, fun ss' h => hunique ss ss' hwritten h⟩

end Netconf.Path
