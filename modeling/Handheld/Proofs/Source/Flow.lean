import Handheld.Proofs.Source.Meaning

/-!
The meaning of statements over numbers: how they end, and what they leave in the variables.
-/
namespace Handheld.Source

inductive Outcome where
  | normal
  | broke
  | continued
  | returned (value : Option Int32)
  deriving DecidableEq, Repr

def Outcome.ofBody : Outcome → Option Outcome
  | normal | continued => none
  | broke => some normal
  | returned v => some (returned v)

def Outcome.ofSwitch : Outcome → Outcome
  | broke => normal
  | o => o

def Scope.declare (scope : Scope) (x : String) (base : Base) : Scope :=
  Function.update scope x (some ⟨.frame x, base⟩)

namespace Declared

def behind (base : Base) (scope : Scope) : Declared → Scope
  | plain d | scalar d _ => scope.declare d.name base
  | _ => scope

def init (base : Base) (scope : Scope) (σ : Store) : Declared → Store
  | scalar d value =>
    let scope := scope.declare d.name base
    let (a, σ) := value.eval scope σ
    (scope.assign (some d.name) a σ).2
  | _ => σ

def behindAll (base : Base) : Scope → List Declared → Scope
  | scope, [] => scope
  | scope, d :: ds => behindAll base (d.behind base scope) ds

def initAll (base : Base) : Scope → List Declared → Store → Store
  | _, [], σ => σ
  | scope, d :: ds, σ => initAll base (d.behind base scope) ds (d.init base scope σ)

def isPlain (base : Base) (scope : Scope) : Declared → Bool
  | plain d => d.pointer == 0 && d.dims.isEmpty
  | scalar d value => d.pointer == 0 && value.isNumeric (scope.declare d.name base)
  | _ => false

def arePlain (base : Base) : Scope → List Declared → Bool
  | _, [] => true
  | scope, d :: ds => d.isPlain base scope && arePlain base (d.behind base scope) ds

def height : List Declared → Nat
  | scalar _ value :: ds => max (1 + value.height) (height ds)
  | _ :: ds => height ds
  | [] => 0

end Declared

namespace Stmt

mutual

def behind (scope : Scope) : Stmt → Scope
  | .block ss => behindAll scope ss
  | .declare base ds => Declared.behindAll base scope ds
  | .ifThen _ _ yes => yes.behind scope
  | .ifElse _ _ yes no => no.behind (yes.behind scope)
  | .whileLoop _ _ body | .doLoop body _ _ | .switch _ _ _ body => body.behind scope
  | .forLoop _ init _ _ body => body.behind (init.behind scope)
  | _ => scope

def behindAll (scope : Scope) : List Stmt → Scope
  | [] => scope
  | s :: ss => behindAll (s.behind scope) ss

end

def isLabel : Stmt → Bool
  | .case _ _ | .default _ => true
  | _ => false

mutual

/--
Whether a statement is made of expressions over numbers and of variables for them. The labels of a `switch` are
directly in its block.
-/
def isPlain (scope : Scope) : Stmt → Bool
  | .empty | .breakOut _ | .goOn _ | .ret _ none => true
  | .block ss => arePlain false scope ss
  | .expr e | .ret _ (some e) => e.isNumeric scope
  | .declare base ds => Declared.arePlain base scope ds
  | .ifThen _ e yes => e.isNumeric scope && yes.isPlain scope
  | .ifElse _ e yes no => e.isNumeric scope && yes.isPlain scope && no.isPlain (yes.behind scope)
  | .whileLoop _ e body => e.isNumeric scope && body.isPlain scope
  | .doLoop body _ e => body.isPlain scope && e.isNumeric (body.behind scope)
  | .forLoop _ init cond step body =>
    init.isPlain scope && cond.all (·.isNumeric (init.behind scope)) && step.all (·.isNumeric (init.behind scope))
      && body.isPlain (init.behind scope)
  | .switch _ _ e (.block ss) => e.isNumeric scope && arePlain true scope ss
  | _ => false

def arePlain (labels : Bool) (scope : Scope) : List Stmt → Bool
  | [] => true
  | s :: ss => (s.isPlain scope || labels && s.isLabel) && arePlain labels (s.behind scope) ss

end

mutual

def height : Stmt → Nat
  | .block ss => heightAll ss
  | .expr e | .ret _ (some e) => e.height
  | .declare _ ds => Declared.height ds
  | .ifThen _ e yes => max e.height yes.height
  | .ifElse _ e yes no => max e.height (max yes.height no.height)
  | .whileLoop _ e body | .doLoop body _ e => max e.height body.height
  | .forLoop _ init cond step body =>
    max init.height (max (cond.elim 0 Expr.height) (max (step.elim 0 Expr.height) body.height))
  | .switch _ _ e body => max (1 + e.height) body.height
  | .ret _ none => 1
  | _ => 0

def heightAll : List Stmt → Nat
  | [] => 0
  | s :: ss => max s.height (heightAll ss)

end

end Stmt

def Scope.test (scope : Scope) : Option Expr → Store → Bool × Store
  | some e, σ =>
    let (a, σ) := e.eval scope σ
    (a != 0, σ)
  | none, σ => (true, σ)

def Scope.step (scope : Scope) : Option Expr → Store → Store
  | some e, σ => (e.eval scope σ).2
  | none, σ => σ

inductive Enters (a : Int32) (ss : List Stmt) : List Stmt → List Stmt → Prop where
  | case {before behind span} (h : ss = before ++ .case span a :: behind) : Enters a ss before behind
  | default {before behind span} (hcase : ∀ span, .case span a ∉ ss)
    (h : ss = before ++ .default span :: behind) : Enters a ss before behind
  | skip (hcase : ∀ span, .case span a ∉ ss) (hdefault : ∀ span, .default span ∉ ss) : Enters a ss ss []

inductive Exec : Scope → Stmt → Store → Outcome → Store → Prop where
  | empty {scope σ} : Exec scope .empty σ .normal σ
  | nil {scope σ} : Exec scope (.block []) σ .normal σ
  | cons {scope s ss σ σ1 o σ'} (h : Exec scope s σ .normal σ1)
    (hrest : Exec (s.behind scope) (.block ss) σ1 o σ') : Exec scope (.block (s :: ss)) σ o σ'
  | abrupt {scope s ss σ o σ'} (h : Exec scope s σ o σ') (ho : o ≠ .normal) :
    Exec scope (.block (s :: ss)) σ o σ'
  | expr {scope e σ} : Exec scope (.expr e) σ .normal (e.eval scope σ).2
  | declare {scope base ds σ} : Exec scope (.declare base ds) σ .normal (Declared.initAll base scope ds σ)
  | ifThen {scope opened e yes σ σ1 o σ'} (he : scope.test (some e) σ = (true, σ1))
    (h : Exec scope yes σ1 o σ') : Exec scope (.ifThen opened e yes) σ o σ'
  | ifSkip {scope opened e yes σ σ'} (he : scope.test (some e) σ = (false, σ')) :
    Exec scope (.ifThen opened e yes) σ .normal σ'
  | ifYes {scope opened e yes no σ σ1 o σ'} (he : scope.test (some e) σ = (true, σ1))
    (h : Exec scope yes σ1 o σ') : Exec scope (.ifElse opened e yes no) σ o σ'
  | ifNo {scope opened e yes no σ σ1 o σ'} (he : scope.test (some e) σ = (false, σ1))
    (h : Exec (yes.behind scope) no σ1 o σ') : Exec scope (.ifElse opened e yes no) σ o σ'
  | whileStop {scope opened e body σ σ'} (he : scope.test (some e) σ = (false, σ')) :
    Exec scope (.whileLoop opened e body) σ .normal σ'
  | whileLeave {scope opened e body σ σ1 o o' σ'} (he : scope.test (some e) σ = (true, σ1))
    (h : Exec scope body σ1 o σ') (ho : o.ofBody = some o') : Exec scope (.whileLoop opened e body) σ o' σ'
  | whileAgain {scope opened e body σ σ1 σ2 o o' σ'} (he : scope.test (some e) σ = (true, σ1))
    (h : Exec scope body σ1 o σ2) (ho : o.ofBody = none)
    (hagain : Exec scope (.whileLoop opened e body) σ2 o' σ') : Exec scope (.whileLoop opened e body) σ o' σ'
  | doLeave {scope opened e body σ o o' σ'} (h : Exec scope body σ o σ') (ho : o.ofBody = some o') :
    Exec scope (.doLoop body opened e) σ o' σ'
  | doStop {scope opened e body σ σ1 o σ'} (h : Exec scope body σ o σ1) (ho : o.ofBody = none)
    (he : (body.behind scope).test (some e) σ1 = (false, σ')) : Exec scope (.doLoop body opened e) σ .normal σ'
  | doAgain {scope opened e body σ σ1 σ2 o o' σ'} (h : Exec scope body σ o σ1) (ho : o.ofBody = none)
    (he : (body.behind scope).test (some e) σ1 = (true, σ2))
    (hagain : Exec scope (.doLoop body opened e) σ2 o' σ') : Exec scope (.doLoop body opened e) σ o' σ'
  -- behind its first part a `for` is one that has none
  | forInit {scope opened init cond step body σ σ1 o σ'} (h : Exec scope init σ .normal σ1)
    (hloop : Exec (init.behind scope) (.forLoop opened .empty cond step body) σ1 o σ') :
    Exec scope (.forLoop opened init cond step body) σ o σ'
  | forStop {scope opened cond step body σ σ'} (hcond : scope.test cond σ = (false, σ')) :
    Exec scope (.forLoop opened .empty cond step body) σ .normal σ'
  | forLeave {scope opened cond step body σ σ1 o o' σ'} (hcond : scope.test cond σ = (true, σ1))
    (h : Exec scope body σ1 o σ') (ho : o.ofBody = some o') :
    Exec scope (.forLoop opened .empty cond step body) σ o' σ'
  | forAgain {scope opened cond step body σ σ1 σ2 o o' σ'} (hcond : scope.test cond σ = (true, σ1))
    (h : Exec scope body σ1 o σ2) (ho : o.ofBody = none)
    (hagain : Exec scope (.forLoop opened .empty cond step body) (scope.step step σ2) o' σ') :
    Exec scope (.forLoop opened .empty cond step body) σ o' σ'
  | switch {scope span opened e ss before behind σ o σ'} (henters : Enters (e.eval scope σ).1 ss before behind)
    (h : Exec (Stmt.behindAll scope before) (.block behind) (e.eval scope σ).2 o σ') :
    Exec scope (.switch span opened e (.block ss)) σ o.ofSwitch σ'
  -- control passes the labels of a `switch`
  | case {scope span value σ} : Exec scope (.case span value) σ .normal σ
  | default {scope span σ} : Exec scope (.default span) σ .normal σ
  | breakOut {scope span σ} : Exec scope (.breakOut span) σ .broke σ
  | goOn {scope span σ} : Exec scope (.goOn span) σ .continued σ
  | ret {scope span σ} : Exec scope (.ret span none) σ (.returned none) σ
  | retValue {scope span e σ} :
    Exec scope (.ret span (some e)) σ (.returned (some (e.eval scope σ).1)) (e.eval scope σ).2

end Handheld.Source
