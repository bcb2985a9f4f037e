import Handheld.Proofs.Source.Readable
import Handheld.Proofs.Source.Spelling
import Handheld.Proofs.Source.Walk

/-!
Constants have the same value whether they are evaluated while they are read, or compiled and run.
-/
namespace Handheld

open Asm

variable {f : Int32 → Int32} {n : Int32} {least : Nat}

namespace Source

def Expr.Pushes (e : Expr) (v : Int32) : Prop :=
  ∀ ctx b, ∃ code b', e.emit ctx b = .ok ((code, .value .number), b') ∧ Code.Readable code
    ∧ ∀ (W : Walk Memory) stack x, stack.length + e.height ≤ W.m.stack.limit →
      W.Does code (stack, x) (v :: stack, x)

namespace Expr.Pushes

variable {e left right cond yes no : Expr} {v a b : Int32} {span : Span}

theorem loads (h : e.Pushes v) (ctx : Context) (span : Span) (b : Body) :
    ∃ code b', e.Loads ctx span b code .number b' ∧ Code.Readable code
      ∧ ∀ (W : Walk Memory) stack x, stack.length + e.height ≤ W.m.stack.limit →
        W.Does code (stack, x) (v :: stack, x) := by
  obtain ⟨code, b', hemit, h⟩ := h ctx b
  exact ⟨code, b', ⟨code, _, [], hemit, rfl, (List.append_nil code).symm⟩, h⟩

theorem num (n : Int32) : (Expr.num n).Pushes n := by
  intro ctx b
  refine ⟨_, _, emit_num_eq_ok_iff.mpr rfl, by simp, ?_⟩
  intro W stack x hroom
  apply Walk.does_pushInt
  exact hroom

theorem behind {op : Unary} (he : e.Pushes v) (hop : op ≠ .address)
    (hplace : op.place .number = .value .number) (hreadable : Code.Readable op.code)
    (hdoes : ∀ (W : Walk Memory) a stack x, stack.length < W.m.stack.limit →
      W.Does op.code (a :: stack, x) (f a :: stack, x))
    : (Expr.unary op span e).Pushes (f v) := by
  intro ctx b
  obtain ⟨code, b', hcode, hcode', hpush⟩ := he.loads ctx span b
  refine ⟨_, _, (emit_unary_eq_ok_iff hop).mpr ⟨code, .number, b', hcode, congrArg (fun p => ((_, p), b')) hplace⟩,
    by simp [hcode', hreadable], ?_⟩
  intro W stack x hroom
  have hpos := e.height_pos
  rw [height] at hroom
  apply (hpush W stack x hroom).append
  apply hdoes
  omega

theorem neg (he : e.Pushes v) : (Expr.unary .neg span e).Pushes (-v) :=
  he.behind (by decide) rfl (by simp [Unary.code]) fun _ _ _ _ => Walk.does_neg

theorem not (he : e.Pushes v) : (Expr.unary .not span e).Pushes (truth (v == 0)) :=
  behind (f := fun v => truth (v == 0)) he (by decide) rfl (by simp [Unary.code]) fun _ _ _ _ => Walk.does_lnot

theorem complement (he : e.Pushes v) : (Expr.unary .complement span e).Pushes (~~~v) :=
  he.behind (by decide) rfl (by simp [Unary.code]) fun _ _ _ _ => Walk.does_not

theorem plus (he : e.Pushes v) : (Expr.unary .plus span e).Pushes v := by
  intro ctx b
  obtain ⟨code, b', hcode, h⟩ := he.loads ctx span b
  exact ⟨code, b', (emit_unary_eq_ok_iff (by decide)).mpr ⟨code, .number, b', hcode, by simp [Unary.code, Unary.place]⟩, h⟩

theorem binary (op : Binary) (hleft : left.Pushes a) (hright : right.Pushes b) :
    (Expr.binary op span left right).Pushes (op.apply a b) := by
  intro ctx body
  obtain ⟨code1, b1, hcode1, hreadable1, hpush1⟩ := hleft.loads ctx span body
  obtain ⟨code2, b2, hcode2, hreadable2, hpush2⟩ := hright.loads ctx span b1
  have harithmetic : arithmetic op .number .number = ([.op (.binary op)], .number) := by
    simp [arithmetic, Ty.isPointer, Ty.number]
  refine ⟨code1 ++ code2 ++ [.op (.binary op)], b2, ?_, by simp [hreadable1, hreadable2], ?_⟩
  · apply emit_binary_eq_ok_iff.mpr
    refine ⟨code1, .number, b1, hcode1, code2, .number, b2, hcode2, ?_⟩
    rw [harithmetic]
  · intro W stack x hroom
    have hpos := right.height_pos
    rw [height] at hroom
    apply Walk.Does.append ((hpush1 W stack x ?_).append (hpush2 W (a :: stack) x ?_))
    · apply Walk.does_binary
      omega
    · omega
    · rw [List.length_cons]
      omega

theorem logic (both : Bool) (hleft : left.Pushes a) (hright : right.Pushes b) :
    (Expr.logic both span left right).Pushes
      (truth (if both then a != 0 && b != 0 else a != 0 || b != 0)) := by
  intro ctx body
  obtain ⟨code1, b1, hcode1, hreadable1, hpush1⟩ := hleft.loads ctx span body
  obtain ⟨code2, b2, hcode2, hreadable2, hpush2⟩ := hright.loads ctx span (b1.skip 2)
  refine ⟨_, b2, emit_logic_eq_ok_iff.mpr ⟨code1, .number, b1, hcode1, code2, .number, b2, hcode2, rfl⟩,
    ?_, ?_⟩
  · apply readable_logicCode
    · exact hreadable1
    · exact hreadable2
  · intro W stack x hroom
    have hpos := right.height_pos
    rw [height] at hroom
    have hvalue :
        (if (a != 0) == both then (truth (b != 0) :: stack, x) else (truth (a != 0) :: stack, x))
          = (truth (if both then a != 0 && b != 0 else a != 0 || b != 0) :: stack, x) := by
      cases both <;> cases (a != 0) <;> rfl
    rw [← hvalue]
    apply Walk.does_logic (hpush1 W stack x (by omega))
    · intro _
      exact hpush2 W stack x (by omega)
    · omega

theorem ternary (hcond : cond.Pushes v) (hyes : yes.Pushes a) (hno : no.Pushes b) :
    (Expr.ternary span cond yes no).Pushes (if v != 0 then a else b) := by
  intro ctx body
  obtain ⟨code1, b1, hcode1, hreadable1, hpush1⟩ := hcond.loads ctx span body
  obtain ⟨code2, b2, hcode2, hreadable2, hpush2⟩ := hyes.loads ctx span (b1.skip 2)
  obtain ⟨code3, b3, hcode3, hreadable3, hpush3⟩ := hno.loads ctx span b2
  refine ⟨_, b3, emit_ternary_eq_ok_iff.mpr
    ⟨code1, .number, b1, hcode1, code2, .number, b2, hcode2, code3, .number, b3, hcode3, rfl⟩,
    by simp [hreadable1, hreadable2, hreadable3], ?_⟩
  intro W stack x hroom
  rw [height] at hroom
  apply Walk.does_branch (hpush1 W stack x (by omega))
  · intro hv
    rw [if_pos (bne_iff_ne.mpr hv)]
    exact hpush2 W stack x (by omega)
  · intro hv
    rw [hv]
    exact hpush3 W stack x (by omega)

end Expr.Pushes

def Cursor.Looser (c : Cursor) (least : Nat) : Prop :=
  ∀ op prec, c.head.token = .op op → op.precedence = some prec → prec < least

def Folds (macros : Macros) (level : Level) (c : Cursor) (v : Int32) (c' : Cursor) : Prop :=
  ∃ ts e, c.Past ts c' ∧ Spells macros level ts e ∧ e.Pushes v

namespace Folds

variable {macros : Macros} {level : Level} {c c1 c2 c' : Cursor} {v a b : Int32} {p q : Nat}

theorem map {level' : Level} (h : Folds macros level c v c')
    (hlevel : ∀ ts e, Spells macros level ts e → Spells macros level' ts e)
    : Folds macros level' c v c' := by
  obtain ⟨ts, e, hpast, hspells, hpushes⟩ := h
  exact ⟨ts, e, hpast, hlevel ts e hspells, hpushes⟩

theorem tighter (h : Folds macros (.binary q) c v c') (hpq : p ≤ q) : Folds macros (.binary p) c v c' :=
  h.map fun _ _ hspells => hspells.tighter hpq

theorem expression (h : Folds macros .conditional c v c') : Folds macros .comma c v c' :=
  h.map fun _ _ hspells => .expression (.assignment hspells)

section

variable (hclosed : c.Closed)

include hclosed

theorem single (hne : c.head.token ≠ .eof) (h : Spells macros .primary [c.head] (.num v))
    : Folds macros .unary c v c.tail := by
  refine ⟨[c.head], .num v, ?_, .unary (.postfixed h), .num v⟩
  rw [← hclosed.take_one hne]
  exact c.past_tail

theorem behind {tree : Expr → Expr} (hne : c.head.token ≠ .eof) (h : Folds macros .unary c.tail v c')
    (hspells : ∀ ts e, Spells macros .unary ts e → Spells macros .unary (c.head :: ts) (tree e))
    (hpushes : ∀ e, e.Pushes v → (tree e).Pushes (f v))
    : Folds macros .unary c (f v) c' := by
  obtain ⟨ts, e, hpast, hts, he⟩ := h
  refine ⟨c.head :: ts, tree e, ?_, hspells ts e hts, hpushes e he⟩
  have hpast' := c.past_tail.trans hpast
  rwa [hclosed.take_one hne] at hpast'

theorem negative (hl : c.head.token = .op (.binary .sub)) (hk : c.tail.head.token = .int n)
    : Folds macros .unary c (-n) c.tail.tail := by
  refine ⟨[c.head, c.tail.head], .num (-n), ?_, .negative hl hk, .num (-n)⟩
  have hpast := c.past_tail.trans c.tail.past_tail
  rwa [hclosed.take_one (by simp [hl]), hclosed.tail.take_one (by simp [hk])] at hpast

theorem minus (hl : c.head.token = .op (.binary .sub))
    (hk : ∀ n, c.tail.head.token ≠ .int n) (h : Folds macros .unary c.tail v c')
    : Folds macros .unary c (-v) c' := by
  obtain ⟨ts, e, hpast, hts, he⟩ := h
  cases ts with
  | nil => cases hts.length_pos
  | cons k ts =>
    have hhead : c.tail.head = k := by
      rw [Cursor.head, hpast.rest]
      rfl
    rw [hhead] at hk
    refine ⟨c.head :: k :: ts, _, ?_, .minus hl hk hts, he.neg⟩
    have hpast' := c.past_tail.trans hpast
    rwa [hclosed.take_one (by simp [hl])] at hpast'

theorem parens (hl : c.head.token = .punct .lParen)
    (h : Folds macros .conditional c.tail v c1) (hr : c1.head.token = .punct .rParen)
    : Folds macros .unary c v c1.tail := by
  obtain ⟨ts, e, hpast, hts, he⟩ := h.expression
  have hclosed1 := hclosed.tail.past hpast
  refine ⟨c.head :: ts ++ [c1.head], e, ?_, .unary (.postfixed (.parens hl hts hr)), he⟩
  have hpast' := (c.past_tail.trans hpast).trans c1.past_tail
  rwa [hclosed.take_one (by simp [hl]), hclosed1.take_one (by simp [hr])] at hpast'

theorem join {op : Operator} (hleft : Folds macros (.binary p) c a c1)
    (hl : c1.head.token = .op op) (hp : op.precedence = some p) (hright : Folds macros (.binary (p + 1)) c1.tail b c')
    : Folds macros (.binary p) c (op.apply a b) c' := by
  obtain ⟨ts, e, hpast, hts, he⟩ := hleft
  obtain ⟨ts', e', hpast', hts', he'⟩ := hright
  have hall := hpast.trans (c1.past_tail.trans hpast')
  rw [(hclosed.past hpast).take_one (by simp [hl])] at hall
  cases op with
  | binary op => exact ⟨_, _, hall, .binary hts hl hp hts', he.binary op he'⟩
  | andAnd =>
    cases hp
    exact ⟨_, _, hall, .both hts hl hts', he.logic true he'⟩
  | orOr =>
    cases hp
    exact ⟨_, _, hall, .either hts hl hts', he.logic false he'⟩
  | _ => cases hp

theorem ternary (hcond : Folds macros (.binary 1) c v c1)
    (hl : c1.head.token = .punct .question) (hyes : Folds macros .conditional c1.tail a c2)
    (hk : c2.head.token = .punct .colon) (hno : Folds macros .conditional c2.tail b c')
    : Folds macros .conditional c (if v != 0 then a else b) c' := by
  obtain ⟨ts, e, hpast, hts, he⟩ := hcond
  obtain ⟨ts1, e1, hpast1, hts1, he1⟩ := hyes.expression
  obtain ⟨ts2, e2, hpast2, hts2, he2⟩ := hno
  have hclosed1 := hclosed.past hpast
  have hclosed2 := hclosed1.tail.past hpast1
  have hall := hpast.trans (c1.past_tail.trans (hpast1.trans (c2.past_tail.trans hpast2)))
  rw [hclosed1.take_one (by simp [hl]), hclosed2.take_one (by simp [hk])] at hall
  exact ⟨_, _, hall, .ternary hts hl hts1 hk hts2, he.ternary he1 he2⟩

end

end Folds

namespace Constant

open Read

variable {macros : Macros} {fuel : Nat}

structure Agrees (macros : Macros) (fuel : Nat) : Prop where
  ternary : ∀ {c v c'}, c.Closed → ternary macros fuel c = .ok v c' → Folds macros .conditional c v c'
  binary : ∀ {least c v c'}, c.Closed → binary macros fuel least c = .ok v c' →
    Folds macros (.binary least) c v c' ∧ c'.Looser least
  -- `q` is how tightly what is read so far can be taken to bind
  binaryRest : ∀ {least q left c c1 v c'}, c.Closed → Folds macros (.binary q) c left c1 → least ≤ q →
    c1.Looser (q + 1) → binaryRest macros fuel least left c1 = .ok v c' →
    Folds macros (.binary least) c v c' ∧ c'.Looser least
  unary : ∀ {c v c'}, c.Closed → unary macros fuel c = .ok v c' → Folds macros .unary c v c'

theorem Agrees.ternary_succ {c c' : Cursor} {v : Int32} (ih : Agrees macros fuel) (hclosed : c.Closed)
    (h : Constant.ternary macros (fuel + 1) c = .ok v c')
    : Folds macros .conditional c v c' := by
  obtain ⟨cond, c1, hcond, hrest⟩ := bind_eq_ok_iff.mp h
  obtain ⟨hcond, -⟩ := ih.binary hclosed hcond
  have ⟨ts, e, hpast, _, _⟩ := hcond
  have hclosed1 := hclosed.past hpast
  obtain ⟨eaten, c2, heat, hrest⟩ := bind_eq_ok_iff.mp hrest
  obtain ⟨rfl, hquestion, rfl⟩ | ⟨rfl, -, rfl⟩ := of_eat heat
  · obtain ⟨yes, c2, hyes, hrest⟩ := bind_eq_ok_iff.mp hrest
    replace hyes := ih.ternary hclosed1.tail hyes
    have ⟨ts1, e1, hpast1, _, _⟩ := hyes
    obtain ⟨hcolon, hrest⟩ := of_expect_bind hrest
    obtain ⟨no, c3, hno, hrest⟩ := bind_eq_ok_iff.mp hrest
    replace hno := ih.ternary (hclosed1.tail.past hpast1).tail hno
    cases hrest
    exact .ternary hclosed hcond hquestion hyes hcolon hno
  · cases hrest
    exact hcond.map fun _ _ => .conditional

theorem Agrees.binary_succ {c c' : Cursor} {v : Int32} (ih : Agrees macros fuel)
    (hclosed : c.Closed) (h : Constant.binary macros (fuel + 1) least c = .ok v c')
    : Folds macros (.binary least) c v c' ∧ c'.Looser least := by
  obtain ⟨left, c1, hleft, hrest⟩ := bind_eq_ok_iff.mp h
  -- an operand binds more tightly than all operators
  have hoperand : Folds macros (.binary (max least 10)) c left c1 :=
    (ih.unary hclosed hleft).map fun _ _ => .operand
  apply ih.binaryRest hclosed hoperand (Nat.le_max_left _ _) ?_ hrest
  intro op prec _ hprec
  have hle := Operator.precedence_le hprec
  omega

theorem Agrees.binaryRest_succ {c c1 c' : Cursor} {left v : Int32} {q : Nat} (ih : Agrees macros fuel)
    (hclosed : c.Closed) (hleft : Folds macros (.binary q) c left c1) (hq : least ≤ q)
    (hlooser : c1.Looser (q + 1)) (h : Constant.binaryRest macros (fuel + 1) least left c1 = .ok v c')
    : Folds macros (.binary least) c v c' ∧ c'.Looser least := by
  have ⟨ts, e, hpast, _, _⟩ := hleft
  have hclosed1 := hclosed.past hpast
  have hrest := of_peek_bind h
  cases htoken : c1.head.token with
  | op op =>
    rw [htoken] at hrest
    dsimp only at hrest
    cases hprec : op.precedence with
    | some prec =>
      rw [hprec] at hrest
      dsimp only at hrest
      split at hrest
      next hle =>
        replace hrest := of_next_bind hrest
        obtain ⟨right, c2, hright, hrest⟩ := bind_eq_ok_iff.mp hrest
        obtain ⟨hright, hlooser2⟩ := ih.binary hclosed1.tail hright
        have hlt := hlooser op prec htoken hprec
        have hjoin := Folds.join hclosed (hleft.tighter (by omega)) htoken hprec hright
        exact ih.binaryRest hclosed hjoin hle hlooser2 hrest
      next hlt =>
        cases hrest
        refine ⟨hleft.tighter hq, ?_⟩
        intro op' prec' htoken' hprec'
        cases htoken.symm.trans htoken'
        cases hprec.symm.trans hprec'
        omega
    | none =>
      rw [hprec] at hrest
      cases hrest
      refine ⟨hleft.tighter hq, ?_⟩
      intro op' prec' htoken' hprec'
      cases htoken.symm.trans htoken'
      cases hprec.symm.trans hprec'
  | int | str | ident | word | punct | eof =>
    rw [htoken] at hrest
    cases hrest
    refine ⟨hleft.tighter hq, ?_⟩
    intro op' prec' htoken'
    cases htoken.symm.trans htoken'

theorem of_unary_int {c c' : Cursor} {v : Int32} (h : Constant.unary macros fuel c = .ok v c')
    (hn : c.head.token = .int n)
    : v = n ∧ c' = c.tail := by
  cases fuel with
  | zero => cases h
  | succ fuel =>
    have hrest := of_next_bind h
    rw [hn] at hrest
    cases hrest
    exact ⟨rfl, rfl⟩

theorem Agrees.unary_succ {c c' : Cursor} {v : Int32} (ih : Agrees macros fuel) (hclosed : c.Closed)
    (h : Constant.unary macros (fuel + 1) c = .ok v c')
    : Folds macros .unary c v c' := by
  have hrest := of_next_bind h
  cases htoken : c.head.token with
  | int n =>
    rw [htoken] at hrest
    cases hrest
    exact .single hclosed (by simp [htoken]) (.number htoken)
  | op op =>
    rw [htoken] at hrest
    have hne : c.head.token ≠ .eof := by simp [htoken]
    cases op with
    | binary b =>
      cases b with
      | sub =>
        obtain ⟨n, c1, hn, hrest⟩ := bind_eq_ok_iff.mp hrest
        cases hrest
        -- the reader of expressions takes a number with its minus at once
        by_cases hk : ∃ k, c.tail.head.token = .int k
        · obtain ⟨k, hk⟩ := hk
          obtain ⟨rfl, rfl⟩ := of_unary_int hn hk
          exact .negative hclosed htoken hk
        · exact .minus hclosed htoken (fun k heq => hk ⟨k, heq⟩) (ih.unary hclosed.tail hn)
      | add =>
        exact .behind (f := id) hclosed hne (ih.unary hclosed.tail hrest) (fun _ _ => .plus htoken) fun _ => .plus
      | _ => cases hrest
    | tilde =>
      obtain ⟨n, c1, hn, hrest⟩ := bind_eq_ok_iff.mp hrest
      cases hrest
      exact .behind hclosed hne (ih.unary hclosed.tail hn) (fun _ _ => .complement htoken) fun _ => .complement
    | bang =>
      obtain ⟨n, c1, hn, hrest⟩ := bind_eq_ok_iff.mp hrest
      cases hrest
      exact .behind (f := fun n => truth (n == 0)) hclosed hne (ih.unary hclosed.tail hn)
        (fun _ _ => .not htoken) fun _ => .not
    | _ => cases hrest
  | punct p =>
    rw [htoken] at hrest
    cases p with
    | lParen =>
      obtain ⟨n, c1, hn, hrest⟩ := bind_eq_ok_iff.mp hrest
      obtain ⟨hr, hrest⟩ := of_expect_bind hrest
      cases hrest
      exact .parens hclosed htoken (ih.ternary hclosed.tail hn) hr
    | _ => cases hrest
  | ident name =>
    rw [htoken] at hrest
    dsimp only at hrest
    cases hlookup : macros.lookup name with
    | none =>
      rw [hlookup] at hrest
      cases hrest
    | some value =>
      rw [hlookup] at hrest
      cases value with
      | int n =>
        cases hrest
        exact .single hclosed (by simp [htoken]) (.constant htoken hlookup)
      | text bytes => cases hrest
  | str | word | eof =>
    rw [htoken] at hrest
    cases hrest

theorem agrees (macros : Macros) (fuel : Nat) : Agrees macros fuel := by
  induction fuel with
  | zero =>
    constructor
    · intro c v c' _ h
      cases h
    · intro least c v c' _ h
      cases h
    · intro least q left c c1 v c' _ _ _ _ h
      cases h
    · intro c v c' _ h
      cases h
  | succ fuel ih => exact ⟨ih.ternary_succ, ih.binary_succ, ih.binaryRest_succ, ih.unary_succ⟩

end Constant

theorem Expr.Pushes.reaches {e : Expr} {v : Int32} (h : e.Pushes v) (ctx : Context) (b : Body) :
    ∃ code b', e.emit ctx b = .ok ((code, .value .number), b')
      ∧ ∀ (front back : Code) (options : Options) (m : Machine),
        assemble (Code.render (front ++ code ++ back)) options = .ok m.image → m.Ready → m.pc = front.stop →
        m.stack.size + e.height ≤ m.stack.limit →
        ∃ last, m.Reaches
          { m with
            pc := Code.stop (front ++ code)
            lastPc := last
            stack := { m.stack with items := m.stack.items.push v } } := by
  obtain ⟨code, b', hemit, hreadable, hdoes⟩ := h ctx b
  refine ⟨code, b', hemit, ?_⟩
  intro front back options m himage hready hpc hroom
  obtain ⟨⟨address, hstands⟩, hstop⟩ := Code.stands_of_assemble hreadable himage
  have hroom' : m.stack.items.toList.reverse.length + e.height ≤ m.stack.limit := by
    simpa [Stack.size] using hroom
  have hruns := (hdoes (.ofMachine m address hready) _ m.memory hroom').runs hstands
  obtain ⟨last, hreaches⟩ := hruns m.lastPc
  have hstart : m.set m.lastPc ⟨front.stop, m.stack.items.toList.reverse, m.memory⟩ = m := by
    rw [← hpc]
    exact m.set_config
  refine ⟨last, ?_⟩
  rwa [hstart, Machine.set_push, ← hstop] at hreaches

/--
Tokens that are read as a constant are also read as an expression. There is code for the expression, which a machine with
enough room on its stack runs to push the value of the constant; all else is then as it was.
-/
theorem folding_agrees_with_execution {macros : Macros} {c c' : Cursor} {v : Int32} (hclosed : c.Closed)
    (hconstant : constant macros c = .ok v c')
    : ∃ ts e, c.Past ts c'
        ∧ (∀ rest final fuel, (Cursor.mk rest final).head.token.ends .comma → 8 * ts.length ≤ fuel →
          Grammar.expression macros fuel ⟨ts ++ rest, final⟩ = (e, ⟨rest, final⟩))
        ∧ ∀ ctx b, ∃ code b', e.emit ctx b = .ok ((code, .value .number), b')
          ∧ ∀ (front back : Code) (options : Options) (m : Machine),
            assemble (Code.render (front ++ code ++ back)) options = .ok m.image → m.Ready →
            m.pc = front.stop → m.stack.size + e.height ≤ m.stack.limit →
            ∃ last, m.Reaches
              { m with
                pc := Code.stop (front ++ code)
                lastPc := last
                stack := { m.stack with items := m.stack.items.push v } } := by
  have hread : Constant.ternary macros (4 * (c.rest.length + 2)) c = .ok v c' := hconstant
  obtain ⟨ts, e, hpast, hspells, hpushes⟩ := ((Constant.agrees macros _).ternary hclosed hread).expression
  refine ⟨ts, e, hpast, ?_, hpushes.reaches⟩
  intro rest final fuel hends hfuel
  exact hspells.reads.expression_eq hspells.length_pos (Nat.le_add_right_of_le hfuel) hends

def overflowTokens : List Lexeme :=
  [.punct .lParen, .int 1, .op (.binary .shl), .int 31, .punct .rParen, .op (.binary .div), .op (.binary .sub), .int 1,
    .punct .question, .ident "N", .punct .colon, .int 0].map (⟨·, {}⟩)

def overflowExpr : Expr :=
  .ternary {} (.binary .div {} (.binary .shl {} (.num 1) (.num 31)) (.num (-1))) (.num 300) (.num 0)

def overflowLines : Code :=
  [.op (.push .byte) [.int 1], .op (.push .byte) [.int 31], .op (.binary .shl), .op (.push .word) [.int (-1)],
    .op (.binary .div), .op .jz [.label (.fresh 1)], .op (.push .word) [.int 300], .op .jmp [.label (.fresh 2)],
    .label (.fresh 1), .op (.push .byte) [.int 0], .label (.fresh 2)]

def overflowMachine (image : Array UInt8) : Machine where
  image := image
  pc := Header.length
  stack := { limit := 3, items := #[7] }
  loaded := true

theorem folding_agrees_with_execution_overflow :
    constant [("N", .int 300)] ⟨overflowTokens, .ok ⟨.eof, {}⟩⟩ = .ok 300 ⟨[], .ok ⟨.eof, {}⟩⟩
      ∧ ∃ image, assemble overflowLines.render {} = .ok image
        ∧ ∃ last, (overflowMachine image).Reaches
          { overflowMachine image with
            pc := Code.stop overflowLines
            lastPc := last
            stack := { limit := 3, items := #[7, 300] } } := by
  have hconstant : constant [("N", .int 300)] ⟨overflowTokens, .ok ⟨.eof, {}⟩⟩
      = .ok 300 ⟨[], .ok ⟨.eof, {}⟩⟩ := rfl
  refine ⟨hconstant, ?_⟩
  have hclosed : (Cursor.mk overflowTokens (.ok ⟨.eof, {}⟩)).Closed := rfl
  obtain ⟨ts, e, hpast, hread, hcode⟩ := folding_agrees_with_execution hclosed hconstant
  have hts : ts = overflowTokens := by
    have hrest : overflowTokens = ts ++ [] := hpast.rest
    rw [hrest, List.append_nil]
  have he : e = overflowExpr := by
    have hparse : Grammar.expression [("N", .int 300)] 96 ⟨overflowTokens ++ [], .ok ⟨.eof, {}⟩⟩
        = (overflowExpr, ⟨[], .ok ⟨.eof, {}⟩⟩) := rfl
    have hparse' := hread [] (.ok ⟨.eof, {}⟩) 96 rfl (by rw [hts]; decide)
    rw [hts, hparse] at hparse'
    cases hparse'
    rfl
  subst he
  obtain ⟨code, b', hemit, hrun⟩ := hcode { globals := {}, ret := .void, main := false } {}
  have hlines : overflowExpr.emit { globals := {}, ret := .void, main := false } {}
      = .ok ((overflowLines, .value .number), { labels := 2 }) := rfl
  cases hlines.symm.trans hemit
  obtain ⟨image, himage⟩ := Except.exists_eq_ok_of_isOk (x := assemble overflowLines.render {}) (by decide +kernel)
  have himage' : assemble (Code.render ([] ++ overflowLines ++ [])) {} = .ok (overflowMachine image).image := himage
  obtain ⟨last, hreaches⟩ := hrun [] [] {} (overflowMachine image) himage' ⟨rfl, rfl⟩ rfl
    (Nat.le_of_ble_eq_true rfl)
  exact ⟨image, himage, last, hreaches⟩

end Source
end Handheld
