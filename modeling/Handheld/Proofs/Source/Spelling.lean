import Handheld.Proofs.Source.Meaning
import Handheld.Source.Grammar

/-!
How expressions over numbers are spelled, and that they are read so.
-/
namespace Handheld.Source

variable {level : Level} {t : Token} {op : Operator} {macros : Macros} {ts : List Lexeme} {e : Expr}
  {up : Bool} {n : Int32}

inductive Level where
  | comma
  | assignment
  | conditional
  | binary (prec : Nat)
  | unary
  | postfixed
  | primary
  deriving DecidableEq, Repr

inductive Spells (macros : Macros) : Level → List Lexeme → Expr → Prop where
  | number {l : Lexeme} {n : Int32} (hl : l.token = .int n) : Spells macros .primary [l] (.num n)
  | name {l : Lexeme} {x : String} (hl : l.token = .ident x) (hx : macros.lookup x = none) :
    Spells macros .primary [l] (.name x l.span)
  | constant {l : Lexeme} {x : String} {n : Int32} (hl : l.token = .ident x)
    (hx : macros.lookup x = some (.int n)) : Spells macros .primary [l] (.num n)
  | parens {l r : Lexeme} {ts : List Lexeme} {e : Expr} (hl : l.token = .punct .lParen)
    (h : Spells macros .comma ts e) (hr : r.token = .punct .rParen) :
    Spells macros .primary (l :: ts ++ [r]) e
  | postfixed {ts : List Lexeme} {e : Expr} (h : Spells macros .primary ts e) :
    Spells macros .postfixed ts e
  | incBehind {ts : List Lexeme} {l : Lexeme} {e : Expr} (h : Spells macros .postfixed ts e)
    (hl : l.token = .op .inc) : Spells macros .postfixed (ts ++ [l]) (.step true false l.span e)
  | decBehind {ts : List Lexeme} {l : Lexeme} {e : Expr} (h : Spells macros .postfixed ts e)
    (hl : l.token = .op .dec) : Spells macros .postfixed (ts ++ [l]) (.step false false l.span e)
  | unary {ts : List Lexeme} {e : Expr} (h : Spells macros .postfixed ts e) :
    Spells macros .unary ts e
  | incBefore {l : Lexeme} {ts : List Lexeme} {e : Expr} (hl : l.token = .op .inc)
    (h : Spells macros .unary ts e) : Spells macros .unary (l :: ts) (.step true true l.span e)
  | decBefore {l : Lexeme} {ts : List Lexeme} {e : Expr} (hl : l.token = .op .dec)
    (h : Spells macros .unary ts e) : Spells macros .unary (l :: ts) (.step false true l.span e)
  | negative {l k : Lexeme} {n : Int32} (hl : l.token = .op (.binary .sub)) (hk : k.token = .int n) :
    Spells macros .unary [l, k] (.num (-n))
  | minus {l k : Lexeme} {ts : List Lexeme} {e : Expr} (hl : l.token = .op (.binary .sub))
    (hk : ∀ n, k.token ≠ .int n) (h : Spells macros .unary (k :: ts) e) :
    Spells macros .unary (l :: k :: ts) (.unary .neg l.span e)
  | plus {l : Lexeme} {ts : List Lexeme} {e : Expr} (hl : l.token = .op (.binary .add))
    (h : Spells macros .unary ts e) : Spells macros .unary (l :: ts) (.unary .plus l.span e)
  | not {l : Lexeme} {ts : List Lexeme} {e : Expr} (hl : l.token = .op .bang)
    (h : Spells macros .unary ts e) : Spells macros .unary (l :: ts) (.unary .not l.span e)
  | complement {l : Lexeme} {ts : List Lexeme} {e : Expr} (hl : l.token = .op .tilde)
    (h : Spells macros .unary ts e) : Spells macros .unary (l :: ts) (.unary .complement l.span e)
  | operand {ts : List Lexeme} {e : Expr} {p : Nat} (h : Spells macros .unary ts e) :
    Spells macros (.binary p) ts e
  | tighter {ts : List Lexeme} {e : Expr} {p q : Nat} (h : Spells macros (.binary q) ts e) (hpq : p ≤ q) :
    Spells macros (.binary p) ts e
  | binary {ts ts' : List Lexeme} {l : Lexeme} {e e' : Expr} {op : Binary} {p : Nat}
    (h : Spells macros (.binary p) ts e) (hl : l.token = .op (.binary op))
    (hp : (Operator.binary op).precedence = some p) (h' : Spells macros (.binary (p + 1)) ts' e') :
    Spells macros (.binary p) (ts ++ l :: ts') (.binary op l.span e e')
  | both {ts ts' : List Lexeme} {l : Lexeme} {e e' : Expr} (h : Spells macros (.binary 2) ts e)
    (hl : l.token = .op .andAnd) (h' : Spells macros (.binary 3) ts' e') :
    Spells macros (.binary 2) (ts ++ l :: ts') (.logic true l.span e e')
  | either {ts ts' : List Lexeme} {l : Lexeme} {e e' : Expr} (h : Spells macros (.binary 1) ts e)
    (hl : l.token = .op .orOr) (h' : Spells macros (.binary 2) ts' e') :
    Spells macros (.binary 1) (ts ++ l :: ts') (.logic false l.span e e')
  | conditional {ts : List Lexeme} {e : Expr} (h : Spells macros (.binary 1) ts e) :
    Spells macros .conditional ts e
  | ternary {ts ts1 ts2 : List Lexeme} {l k : Lexeme} {e e1 e2 : Expr}
    (h : Spells macros (.binary 1) ts e) (hl : l.token = .punct .question)
    (h1 : Spells macros .comma ts1 e1) (hk : k.token = .punct .colon)
    (h2 : Spells macros .conditional ts2 e2) :
    Spells macros .conditional (ts ++ l :: (ts1 ++ k :: ts2)) (.ternary l.span e e1 e2)
  | assignment {ts : List Lexeme} {e : Expr} (h : Spells macros .conditional ts e) :
    Spells macros .assignment ts e
  | assign {ts ts' : List Lexeme} {l : Lexeme} {e e' : Expr} (h : Spells macros .conditional ts e)
    (hl : l.token = .op .assign) (h' : Spells macros .assignment ts' e') :
    Spells macros .assignment (ts ++ l :: ts') (.assign l.span e e')
  | update {ts ts' : List Lexeme} {l : Lexeme} {e e' : Expr} {op : Binary}
    (h : Spells macros .conditional ts e) (hl : l.token = .op (.update op))
    (h' : Spells macros .assignment ts' e') :
    Spells macros .assignment (ts ++ l :: ts') (.update op l.span e e')
  | expression {ts : List Lexeme} {e : Expr} (h : Spells macros .assignment ts e) :
    Spells macros .comma ts e
  | comma {ts ts' : List Lexeme} {l : Lexeme} {e e' : Expr} (h : Spells macros .comma ts e)
    (hl : l.token = .punct .comma) (h' : Spells macros .assignment ts' e') :
    Spells macros .comma (ts ++ l :: ts') (.comma e e')

def Token.rank? : Token → Option Nat
  | .punct .comma => some 0
  | .op .assign | .op (.update _) => some 1
  | .punct .question => some 2
  | .op .inc | .op .dec | .punct .lBracket => some 13
  | .punct .lParen => some 14
  | .op o => o.precedence.map (2 + ·)
  | _ => none

def Level.rank : Level → Nat
  | .comma => 0
  | .assignment => 1
  | .conditional => 2
  | .binary p => min (2 + p) 13
  | .unary | .postfixed => 13
  | .primary => 14

def Token.ends (level : Level) (t : Token) : Bool :=
  t.rank?.all (· < level.rank)

theorem Token.ends_iff {r : Nat} (h : t.rank? = some r) : t.ends level ↔ r < level.rank := by
  simp [Token.ends, h]

theorem Token.ends_mono {level level' : Level} (h : t.ends level) (hle : level.rank ≤ level'.rank) : t.ends level' := by
  unfold Token.ends at h ⊢
  rw [Option.all_eq_true] at h ⊢
  intro r hr
  have := h r hr
  simp only [decide_eq_true_eq] at this ⊢
  omega

theorem Operator.rank?_eq {prec : Nat} (h : op.precedence = some prec) : (Token.op op).rank? = some (2 + prec) := by
  cases op <;> simp_all [Token.rank?, precedence]

theorem Operator.precedence_le {prec : Nat} (h : op.precedence = some prec) : prec ≤ 10 := by
  cases op with
  | binary b => cases b <;> cases h <;> decide
  | _ => cases h <;> decide

theorem Spells.length_pos (h : Spells macros level ts e) : 0 < ts.length := by
  induction h <;> grind

namespace Grammar

variable {l k : Lexeme} {ls ks : List Lexeme} {final : Except Error Lexeme} {fuel : Nat}
  {e e' e1 e2 : Expr} {c c' : Cursor}

theorem bind_apply {α β : Type} (x : Tree α) (f : α → Tree β) (c : Cursor) : (x >>= f) c = f (x c).1 (x c).2 :=
  rfl

theorem Read.get_apply (c : Cursor) : (get : Read Cursor) c = .ok c c :=
  rfl

theorem Read.eat_cons (t : Token) :
    Read.eat t ⟨l :: ls, final⟩ = .ok (l.token == t) ⟨if l.token == t then ls else l :: ls, final⟩ := by
  show (if l.token == t then _ else pure false : Read Bool) ⟨l :: ls, final⟩ = _
  cases hl : l.token == t <;> rfl

theorem Read.expect_cons (h : l.token = t) : Read.expect t ⟨l :: ls, final⟩ = .ok l ⟨ls, final⟩ := by
  show (if l.token == t then pure l else _ : Read Lexeme) ⟨ls, final⟩ = _
  rw [h, if_pos (beq_self_eq_true t)]
  rfl

theorem peek_apply (c : Cursor) : peek c = (c.head, c) :=
  rfl

theorem advance_cons : advance ⟨l :: ls, final⟩ = ((), ⟨ls, final⟩) :=
  rfl

theorem next_cons : next ⟨l :: ls, final⟩ = (l, ⟨ls, final⟩) :=
  rfl

theorem head_cons : (Cursor.mk (l :: ls) final).head = l :=
  rfl

theorem eat_cons (h : l.token = t) : eat t ⟨l :: ls, final⟩ = (true, ⟨ls, final⟩) := by
  unfold eat
  rw [bind_apply, peek_apply]
  simp only [head_cons, h, beq_self_eq_true, if_true]
  rfl

theorem eat_of_ne {c : Cursor} (h : c.head.token ≠ t) : eat t c = (false, c) := by
  unfold eat
  rw [bind_apply, peek_apply]
  simp only [beq_eq_false_iff_ne.mpr h]
  rfl

theorem expect_cons (h : l.token = t) : expect t ⟨l :: ls, final⟩ = (.ok l, ⟨ls, final⟩) := by
  unfold expect attempt
  rw [Read.expect_cons h]

theorem string?_of_piece? (h : piece? macros l = none)
    : string? macros ⟨l :: ls, final⟩ = (none, ⟨l :: ls, final⟩) := by
  have hpieces : pieces macros (l :: ls) = [] := by
    simp only [pieces, h]
  have hread : Source.string? macros ⟨l :: ls, final⟩ = .ok none ⟨l :: ls, final⟩ := by
    simp only [Source.string?, bind, EStateM.bind, Read.get_apply, hpieces]
    rfl
  unfold string? attempt
  rw [bind_apply]
  simp only [hread]
  rfl

theorem binary_succ (fuel least : Nat) (c : Cursor)
    : binary macros (fuel + 1) least c
        =
      binaryRest macros fuel least (unary macros fuel c).1 (unary macros fuel c).2 := by
  rw [binary]
  rfl

theorem commaRest_of_ends (hfuel : 0 < fuel) (h : c.head.token.ends .comma) : commaRest macros fuel e c = (e, c) := by
  have hne : c.head.token ≠ .punct .comma := by
    intro heq
    rw [heq] at h
    cases h
  obtain ⟨fuel, rfl⟩ := Nat.exists_eq_succ_of_ne_zero (Nat.ne_of_gt hfuel)
  rw [commaRest, bind_apply, eat_of_ne hne]
  rfl

theorem binaryRest_of_ends {least : Nat} (hfuel : 0 < fuel) (h : c.head.token.ends (.binary least))
    : binaryRest macros fuel least e c = (e, c) := by
  obtain ⟨fuel, rfl⟩ := Nat.exists_eq_succ_of_ne_zero (Nat.ne_of_gt hfuel)
  rw [binaryRest, bind_apply, peek_apply]
  dsimp only
  cases htoken : c.head.token with
  | op op =>
    cases hprec : op.precedence with
    | none =>
      simp only [hprec]
      rfl
    | some prec =>
      rw [htoken, Token.ends_iff (Operator.rank?_eq hprec)] at h
      have hloose : ¬ least ≤ prec := by
        simp only [Level.rank] at h
        omega
      simp only [hprec, if_neg hloose]
      rfl
  | _ => rfl

theorem postfixRest_of_ends (hfuel : 0 < fuel) (h : c.head.token.ends .postfixed)
    : postfixRest macros fuel e c = (e, c) := by
  obtain ⟨fuel, rfl⟩ := Nat.exists_eq_succ_of_ne_zero (Nat.ne_of_gt hfuel)
  rw [postfixRest, bind_apply, peek_apply]
  dsimp only
  cases htoken : c.head.token with
  | op op =>
    cases op with
    | inc | dec =>
      rw [htoken] at h
      cases h
    | _ => rfl
  | punct p =>
    cases p with
    | lBracket =>
      rw [htoken] at h
      cases h
    | _ => rfl
  | _ => rfl

/--
What the reader of a level makes of tokens that spell an expression. A reader of a level that groups from the left comes
to the place where it would go on.
-/
def Reads (macros : Macros) (level : Level) (ts : List Lexeme) (e : Expr) : Prop :=
  ∀ fuel rest final,
    let behind : Cursor := ⟨rest, final⟩
    match level with
    | .comma =>
      8 * ts.length ≤ fuel + 1 → behind.head.token.ends .assignment →
        ∃ left, fuel ≤ left + ts.length ∧
          expression macros fuel ⟨ts ++ rest, final⟩ = commaRest macros left e behind
    | .assignment =>
      8 * ts.length ≤ fuel + 2 → behind.head.token.ends .assignment →
        assignment macros fuel ⟨ts ++ rest, final⟩ = (e, behind)
    | .conditional =>
      8 * ts.length ≤ fuel + 3 → behind.head.token.ends .conditional →
        ternary macros fuel ⟨ts ++ rest, final⟩ = (e, behind)
    | .binary p =>
      8 * ts.length ≤ fuel + 4 → behind.head.token.ends (.binary (p + 1)) → ∀ least ≤ p,
        ∃ left, fuel ≤ left + ts.length ∧
          binary macros fuel least ⟨ts ++ rest, final⟩ = binaryRest macros left least e behind
    | .unary =>
      8 * ts.length ≤ fuel + 5 → behind.head.token.ends .unary →
        unary macros fuel ⟨ts ++ rest, final⟩ = (e, behind)
    | .postfixed =>
      8 * ts.length ≤ fuel + 6 → behind.head.token.ends .primary →
        ∃ left, fuel ≤ left + ts.length ∧
          postfixed macros fuel ⟨ts ++ rest, final⟩ = postfixRest macros left e behind
    | .primary =>
      8 * ts.length ≤ fuel + 7 → behind.head.token.ends .primary →
        primary macros fuel ⟨ts ++ rest, final⟩ = (e, behind)

namespace Reads

variable {ts ts' ts1 ts2 rest : List Lexeme} {p : Nat}

theorem expression_eq (h : Reads macros .comma ts e) (hts : 0 < ts.length) (hfuel : 8 * ts.length ≤ fuel + 1)
    (hends : (Cursor.mk rest final).head.token.ends .comma)
    : expression macros fuel ⟨ts ++ rest, final⟩ = (e, ⟨rest, final⟩) := by
  obtain ⟨left, hleft, heq⟩ := h fuel rest final hfuel (Token.ends_mono hends (by decide))
  rw [heq]
  exact commaRest_of_ends (by omega) hends

theorem binary_eq (h : Reads macros (.binary p) ts e) (hts : 0 < ts.length) (hfuel : 8 * ts.length ≤ fuel + 4)
    (hends : (Cursor.mk rest final).head.token.ends (.binary p))
    : binary macros fuel p ⟨ts ++ rest, final⟩ = (e, ⟨rest, final⟩) := by
  have htighter : (Cursor.mk rest final).head.token.ends (.binary (p + 1)) :=
    Token.ends_mono hends (by simp only [Level.rank]; omega)
  obtain ⟨left, hleft, heq⟩ := h fuel rest final hfuel htighter p (Nat.le_refl p)
  rw [heq]
  exact binaryRest_of_ends (by omega) hends

theorem postfixed_eq (h : Reads macros .postfixed ts e) (hts : 0 < ts.length)
    (hfuel : 8 * ts.length ≤ fuel + 6) (hends : (Cursor.mk rest final).head.token.ends .postfixed)
    : postfixed macros fuel ⟨ts ++ rest, final⟩ = (e, ⟨rest, final⟩) := by
  obtain ⟨left, hleft, heq⟩ := h fuel rest final hfuel (Token.ends_mono hends (by decide))
  rw [heq]
  exact postfixRest_of_ends (by omega) hends

theorem number (hl : l.token = .int n) : Reads macros .primary [l] (.num n) := by
  intro fuel rest final behind hfuel hends
  obtain ⟨fuel, rfl⟩ : ∃ n, fuel = n + 1 := ⟨fuel - 1, by simp at hfuel; omega⟩
  change (string? macros >>= _) _ = _
  rw [List.singleton_append, bind_apply, string?_of_piece? (by simp only [piece?, hl])]
  dsimp only [bind_apply, next_cons]
  rw [hl]
  rfl

theorem name {x : String} {value : Option Int32} (hl : l.token = .ident x) (hx : macros.lookup x = value.map .int)
    : Reads macros .primary [l] ((value.map .num).getD (.name x l.span)) := by
  intro fuel rest final behind hfuel hends
  obtain ⟨fuel, rfl⟩ : ∃ n, fuel = n + 1 := ⟨fuel - 1, by simp at hfuel; omega⟩
  have hpiece : piece? macros l = none := by
    cases value <;> simp only [piece?, hl, hx, Option.map_none, Option.map_some]
  have hcall : behind.head.token ≠ .punct .lParen := by
    intro heq
    rw [heq] at hends
    cases hends
  change (string? macros >>= _) _ = _
  rw [List.singleton_append, bind_apply, string?_of_piece? hpiece]
  dsimp only [bind_apply, next_cons]
  rw [hl]
  dsimp only [bind_apply]
  rw [eat_of_ne hcall, hx]
  cases value <;> rfl

theorem parens {r : Lexeme} (hl : l.token = .punct .lParen) (h : Reads macros .comma ts e) (hts : 0 < ts.length)
    (hr : r.token = .punct .rParen)
    : Reads macros .primary (l :: ts ++ [r]) e := by
  intro fuel rest final behind hfuel _
  simp only [List.length_cons, List.length_append, List.length_nil] at hfuel
  obtain _ | fuel := fuel
  · omega
  have he : expression macros fuel ⟨ts ++ r :: rest, final⟩ = (e, ⟨r :: rest, final⟩) := by
    apply h.expression_eq hts (by omega)
    rw [head_cons, hr]
    rfl
  have htokens : l :: ts ++ [r] ++ rest = l :: (ts ++ r :: rest) := by simp
  change (string? macros >>= _) _ = _
  rw [htokens, bind_apply, string?_of_piece? (by simp only [piece?, hl])]
  dsimp only [bind_apply, next_cons]
  rw [hl]
  dsimp only [bind_apply]
  rw [he, expect_cons hr]
  rfl

theorem postfixed (h : Reads macros .primary ts e) (hts : 0 < ts.length) : Reads macros .postfixed ts e := by
  intro fuel rest final behind hfuel hends
  obtain _ | fuel := fuel
  · omega
  refine ⟨fuel, by omega, ?_⟩
  rw [Grammar.postfixed, bind_apply, h fuel rest final (by omega) hends]

theorem stepBehind (h : Reads macros .postfixed ts e) (hts : 0 < ts.length)
    (hl : l.token = .op (if up then .inc else .dec))
    : Reads macros .postfixed (ts ++ [l]) (.step up false l.span e) := by
  intro fuel rest final behind hfuel _
  simp only [List.length_append, List.length_cons, List.length_nil] at hfuel ⊢
  have hgoes : (Cursor.mk (l :: rest) final).head.token.ends .primary := by
    rw [head_cons, hl]
    cases up <;> rfl
  obtain ⟨left, hleft, heq⟩ := h fuel (l :: rest) final (by omega) hgoes
  obtain _ | left := left
  · omega
  refine ⟨left, by omega, ?_⟩
  rw [List.append_assoc, List.singleton_append, heq, postfixRest, bind_apply, peek_apply]
  cases up <;> simp only [head_cons, hl, if_true, Bool.false_eq_true, if_false, bind_apply, advance_cons, behind]

theorem unary (h : Reads macros .postfixed ts e) (hl : ∀ op, l.token ≠ .op op) (hts : ts = l :: ls)
    : Reads macros .unary ts e := by
  intro fuel rest final behind hfuel hends
  have hpos : 0 < ts.length := by simp [hts]
  obtain _ | fuel := fuel
  · omega
  rw [← h.postfixed_eq hpos (by omega) hends, hts, List.cons_append, Grammar.unary, bind_apply, peek_apply]
  simp only [head_cons]
  cases htoken : l.token with
  | op op => exact absurd htoken (hl op)
  | _ => simp only

theorem stepBefore (hl : l.token = .op (if up then .inc else .dec)) (h : Reads macros .unary ts e) :
    Reads macros .unary (l :: ts) (.step up true l.span e) := by
  intro fuel rest final behind hfuel hends
  simp only [List.length_cons] at hfuel
  obtain _ | fuel := fuel
  · omega
  have he := h fuel rest final (by omega) hends
  rw [List.cons_append, Grammar.unary, bind_apply, peek_apply]
  cases up <;> simp only [head_cons, hl, if_true, Bool.false_eq_true, if_false, bind_apply, advance_cons, he] <;> rfl

theorem negative (hl : l.token = .op (.binary .sub)) (hk : k.token = .int n) :
    Reads macros .unary [l, k] (.num (-n)) := by
  intro fuel rest final behind hfuel hends
  obtain ⟨fuel, rfl⟩ : ∃ n, fuel = n + 1 := ⟨fuel - 1, by simp at hfuel; omega⟩
  simp only [List.cons_append, Grammar.unary, bind_apply, peek_apply, head_cons, hl, unaryOf?, advance_cons, hk]
  rfl

theorem prefixed {u : Unary} (hl : l.token = .op op) (hu : unaryOf? op = some u)
    (hk : u = .neg → ∀ n, k.token ≠ .int n) (h : Reads macros .unary (k :: ts) e)
    : Reads macros .unary (l :: k :: ts) (.unary u l.span e) := by
  intro fuel rest final behind hfuel hends
  simp only [List.length_cons] at hfuel
  obtain _ | fuel := fuel
  · omega
  have he := h fuel rest final (by simp only [List.length_cons]; omega) hends
  simp only [List.cons_append] at he ⊢
  rw [Grammar.unary, bind_apply, peek_apply]
  simp only [head_cons, hl]
  cases op with
  | binary b =>
    cases b with
    | sub =>
      cases hu
      cases htoken : k.token with
      | int n => exact absurd htoken (hk rfl n)
      | _ =>
        simp only [unaryOf?, bind_apply, advance_cons, peek_apply, head_cons, htoken, he]
        rfl
    | add | mul | and =>
      cases hu
      simp only [unaryOf?, bind_apply, advance_cons, peek_apply, he]
      rfl
    | _ => cases hu
  | tilde | bang =>
    cases hu
    simp only [unaryOf?, bind_apply, advance_cons, peek_apply, he]
    rfl
  | _ => cases hu

theorem operand (h : Reads macros .unary ts e) (hts : 0 < ts.length) : Reads macros (.binary p) ts e := by
  intro fuel rest final behind hfuel hends least _
  obtain _ | fuel := fuel
  · omega
  have htighter : behind.head.token.ends .unary := Token.ends_mono hends (by simp only [Level.rank]; omega)
  refine ⟨fuel, by omega, ?_⟩
  rw [binary_succ, h fuel rest final (by omega) htighter]

theorem tighter {q : Nat} (h : Reads macros (.binary q) ts e) (hpq : p ≤ q) : Reads macros (.binary p) ts e := by
  intro fuel rest final behind hfuel hends least hleast
  exact h fuel rest final hfuel (Token.ends_mono hends (by simp only [Level.rank]; omega)) least (by omega)

theorem joined (h : Reads macros (.binary p) ts e) (hl : l.token = .op op)
    (hp : op.precedence = some p) (h' : Reads macros (.binary (p + 1)) ts' e') (hts' : 0 < ts'.length)
    : Reads macros (.binary p) (ts ++ l :: ts') (joined op l.span e e') := by
  intro fuel rest final behind hfuel hends least hleast
  simp only [List.length_append, List.length_cons] at hfuel ⊢
  have hgoes : (Cursor.mk (l :: (ts' ++ rest)) final).head.token.ends (.binary (p + 1)) := by
    have := Operator.precedence_le hp
    rw [head_cons, hl, Token.ends_iff (Operator.rank?_eq hp)]
    simp only [Level.rank]
    omega
  obtain ⟨left, hleft, heq⟩ := h fuel (l :: (ts' ++ rest)) final (by omega) hgoes least hleast
  obtain _ | left := left
  · omega
  refine ⟨left, by omega, ?_⟩
  have he' := h'.binary_eq hts' (show 8 * ts'.length ≤ left + 4 by omega) hends
  rw [List.append_assoc, List.cons_append, heq, binaryRest, bind_apply, peek_apply]
  simp only [head_cons, hl, hp, if_pos hleast, bind_apply, advance_cons, he', behind]

theorem conditional (h : Reads macros (.binary 1) ts e) (hts : 0 < ts.length) : Reads macros .conditional ts e := by
  intro fuel rest final behind hfuel hends
  obtain _ | fuel := fuel
  · omega
  have hne : (Cursor.mk rest final).head.token ≠ .punct .question := by
    intro heq
    rw [show behind.head.token = _ from heq] at hends
    cases hends
  rw [Grammar.ternary, bind_apply, h.binary_eq hts (by omega) (Token.ends_mono hends (by decide))]
  simp only [bind_apply, peek_apply, eat_of_ne hne]
  rfl

theorem ternary (h : Reads macros (.binary 1) ts e) (hts : 0 < ts.length) (hl : l.token = .punct .question)
    (h1 : Reads macros .comma ts1 e1) (hts1 : 0 < ts1.length) (hk : k.token = .punct .colon)
    (h2 : Reads macros .conditional ts2 e2)
    : Reads macros .conditional (ts ++ l :: (ts1 ++ k :: ts2)) (.ternary l.span e e1 e2) := by
  intro fuel rest final behind hfuel hends
  simp only [List.length_append, List.length_cons] at hfuel
  obtain _ | fuel := fuel
  · omega
  have htokens : ts ++ l :: (ts1 ++ k :: ts2) ++ rest = ts ++ l :: (ts1 ++ k :: (ts2 ++ rest)) := by simp
  have he : Grammar.binary macros fuel 1 ⟨ts ++ l :: (ts1 ++ k :: (ts2 ++ rest)), final⟩ = (e, ⟨_, final⟩) :=
    h.binary_eq hts (by omega) (by rw [head_cons, hl]; rfl)
  have he1 : Grammar.expression macros fuel ⟨ts1 ++ k :: (ts2 ++ rest), final⟩ = (e1, ⟨_, final⟩) :=
    h1.expression_eq hts1 (by omega) (by rw [head_cons, hk]; rfl)
  rw [htokens, Grammar.ternary, bind_apply, he]
  simp only [bind_apply, peek_apply, eat_cons hl, if_true, he1, expect_cons hk, h2 fuel rest final (by omega) hends,
    head_cons]
  rfl

theorem assignment (h : Reads macros .conditional ts e) (hts : 0 < ts.length) : Reads macros .assignment ts e := by
  intro fuel rest final behind hfuel hends
  obtain _ | fuel := fuel
  · omega
  rw [Grammar.assignment, bind_apply, h fuel rest final (by omega) (Token.ends_mono hends (by decide))]
  simp only [bind_apply, peek_apply]
  change behind.head.token.ends .assignment at hends
  cases htoken : (Cursor.mk rest final).head.token with
  | op op =>
    cases op with
    | assign | update _ =>
      rw [show behind.head.token = _ from htoken] at hends
      cases hends
    | _ => rfl
  | _ => rfl

theorem assigned {tree : Span → Expr → Expr → Expr} (h : Reads macros .conditional ts e) (hl : l.token = .op op)
    (htree : op = .assign ∧ tree = .assign ∨ ∃ b, op = .update b ∧ tree = .update b) (h' : Reads macros .assignment ts' e')
    : Reads macros .assignment (ts ++ l :: ts') (tree l.span e e') := by
  intro fuel rest final behind hfuel hends
  simp only [List.length_append, List.length_cons] at hfuel
  obtain _ | fuel := fuel
  · omega
  have hop : (Cursor.mk (l :: (ts' ++ rest)) final).head.token.ends .conditional := by
    rw [head_cons, hl]
    rcases htree with ⟨rfl, -⟩ | ⟨b, rfl, -⟩ <;> rfl
  rw [List.append_assoc, List.cons_append, Grammar.assignment, bind_apply, h fuel _ final (by omega) hop]
  rcases htree with ⟨rfl, rfl⟩ | ⟨b, rfl, rfl⟩ <;>
    simp only [bind_apply, peek_apply, head_cons, hl, advance_cons, h' fuel rest final (by omega) hends] <;> rfl

theorem expression (h : Reads macros .assignment ts e) (hts : 0 < ts.length) : Reads macros .comma ts e := by
  intro fuel rest final behind hfuel hends
  obtain _ | fuel := fuel
  · omega
  refine ⟨fuel, by omega, ?_⟩
  rw [Grammar.expression, bind_apply, h fuel rest final (by omega) hends]

theorem comma (h : Reads macros .comma ts e) (hl : l.token = .punct .comma) (h' : Reads macros .assignment ts' e')
    : Reads macros .comma (ts ++ l :: ts') (.comma e e') := by
  intro fuel rest final behind hfuel hends
  simp only [List.length_append, List.length_cons] at hfuel ⊢
  have hgoes : (Cursor.mk (l :: (ts' ++ rest)) final).head.token.ends .assignment := by
    rw [head_cons, hl]
    rfl
  obtain ⟨left, hleft, heq⟩ := h fuel (l :: (ts' ++ rest)) final (by omega) hgoes
  obtain _ | left := left
  · omega
  refine ⟨left, by omega, ?_⟩
  rw [List.append_assoc, List.cons_append, heq, commaRest, bind_apply, eat_cons hl]
  simp only [if_true, bind_apply, h' left rest final (by omega) hends, behind]

end Reads
end Grammar

theorem Spells.head_of_postfixed (h : Spells macros level ts e) (hlevel : level = .postfixed ∨ level = .primary)
    : ∃ l ls, ts = l :: ls ∧ ∀ op, l.token ≠ .op op := by
  induction h with
  | number hl | name hl _ | constant hl _ | parens hl _ _ _ => exact ⟨_, _, rfl, by simp [hl]⟩
  | postfixed _ ih => exact ih (.inr rfl)
  | incBehind _ _ ih | decBehind _ _ ih =>
    obtain ⟨l, ls, rfl, hl⟩ := ih (.inl rfl)
    exact ⟨l, _, rfl, hl⟩
  | _ => simp at hlevel

open Grammar in
theorem Spells.reads (h : Spells macros level ts e) : Reads macros level ts e := by
  induction h with
  | number hl => exact .number hl
  | name hl hx => exact @Reads.name _ _ _ none hl hx
  | constant hl hx => exact @Reads.name _ _ _ (some _) hl hx
  | parens hl h hr ih => exact .parens hl ih h.length_pos hr
  | postfixed h ih => exact .postfixed ih h.length_pos
  | incBehind h hl ih | decBehind h hl ih => exact .stepBehind ih h.length_pos hl
  | unary h ih =>
    obtain ⟨l, ls, hts, hl⟩ := h.head_of_postfixed (.inl rfl)
    exact .unary ih hl hts
  | incBefore hl _ ih | decBefore hl _ ih => exact .stepBefore hl ih
  | negative hl hk => exact .negative hl hk
  | minus hl hk _ ih => exact .prefixed hl rfl (fun _ => hk) ih
  | plus hl h ih | not hl h ih | complement hl h ih =>
    obtain ⟨k, ks, rfl⟩ := List.exists_cons_of_length_pos h.length_pos
    exact .prefixed hl rfl nofun ih
  | operand h ih => exact .operand ih h.length_pos
  | tighter _ hpq ih => exact .tighter ih hpq
  | binary _ hl hp h' ih ih' => exact .joined ih hl hp ih' h'.length_pos
  | both _ hl h' ih ih' | either _ hl h' ih ih' => exact .joined ih hl rfl ih' h'.length_pos
  | conditional h ih => exact .conditional ih h.length_pos
  | ternary h hl h1 hk h2 ih ih1 ih2 => exact .ternary ih h.length_pos hl ih1 h1.length_pos hk ih2
  | assignment h ih => exact .assignment ih h.length_pos
  | assign _ hl _ ih ih' => exact .assigned ih hl (.inl ⟨rfl, rfl⟩) ih'
  | update _ hl _ ih ih' => exact .assigned ih hl (.inr ⟨_, rfl, rfl⟩) ih'
  | expression h ih => exact .expression ih h.length_pos
  | comma _ hl _ ih ih' => exact .comma ih hl ih'

end Handheld.Source
