import Handheld.Source.Tree

/-!
Reading syntax trees. The readers do not fail: they leave the error in the tree and go to the end of the text.
Each takes fuel, which bounds how deep readers can call each other; every token leads at most a dozen deeper.
-/
namespace Handheld.Source.Grammar

abbrev Tree (α : Type) := StateM Cursor α

def peek : Tree Lexeme :=
  return (← get).head

def advance : Tree Unit :=
  modify Cursor.tail

def next : Tree Lexeme := do
  let l ← peek
  advance
  return l

def eat (t : Token) : Tree Bool := do
  if (← peek).token == t then
    advance
    return true
  else
    return false

def stop (e : Error) : Tree Error := do
  modify Cursor.halt
  return e

def attempt {α : Type} (r : Read α) : Tree (Except Error α) := fun c =>
  match r c with
  | .ok a c => (.ok a, c)
  | .error e c => (.error e, c.halt)

def expect (t : Token) : Tree (Except Error Lexeme) :=
  attempt (Read.expect t)

def outOfFuel : Error :=
  Problem.internal.anywhere

def string? (macros : Macros) : Tree (Option (List UInt8)) := do
  match ← attempt (Source.string? macros) with
  | .ok s => return s
  | .error _ => return none

def joined (op : Operator) (span : Span) (left right : Expr) : Expr :=
  match op with
  | .binary b => .binary b span left right
  | .andAnd => .logic true span left right
  | .orOr => .logic false span left right
  | _ => .missing outOfFuel

def unaryOf? : Operator → Option Unary
  | .binary .sub => some .neg
  | .binary .add => some .plus
  | .bang => some .not
  | .tilde => some .complement
  | .binary .mul => some .deref
  | .binary .and => some .address
  | _ => none

mutual

def expression (macros : Macros) : Nat → Tree Expr
  | 0 => return .missing outOfFuel
  | fuel + 1 => do
    let left ← assignment macros fuel
    commaRest macros fuel left

def commaRest (macros : Macros) : Nat → Expr → Tree Expr
  | 0, left => return .cut left outOfFuel
  | fuel + 1, left => do
    if ← eat (.punct .comma) then
      let right ← assignment macros fuel
      commaRest macros fuel (.comma left right)
    else
      return left

def assignment (macros : Macros) : Nat → Tree Expr
  | 0 => return .missing outOfFuel
  | fuel + 1 => do
    let left ← ternary macros fuel
    let l ← peek
    match l.token with
    | .op .assign =>
      advance
      return .assign l.span left (← assignment macros fuel)
    | .op (.update op) =>
      advance
      return .update op l.span left (← assignment macros fuel)
    | _ => return left

def ternary (macros : Macros) : Nat → Tree Expr
  | 0 => return .missing outOfFuel
  | fuel + 1 => do
    let cond ← binary macros fuel 1
    let l ← peek
    if ← eat (.punct .question) then
      let yes ← expression macros fuel
      match ← expect (.punct .colon) with
      | .ok _ => return .ternary l.span cond yes (← ternary macros fuel)
      | .error e => return .ternary l.span cond yes (.missing e)
    else
      return cond

def binary (macros : Macros) : Nat → Nat → Tree Expr
  | 0, _ => return .missing outOfFuel
  | fuel + 1, least => do
    let left ← unary macros fuel
    binaryRest macros fuel least left

def binaryRest (macros : Macros) : Nat → Nat → Expr → Tree Expr
  | 0, _, left => return .cut left outOfFuel
  | fuel + 1, least, left => do
    let l ← peek
    match l.token with
    | .op op =>
      match op.precedence with
      | some prec =>
        if least ≤ prec then
          advance
          let right ← binary macros fuel (prec + 1)
          binaryRest macros fuel least (joined op l.span left right)
        else
          return left
      | none => return left
    | _ => return left

def unary (macros : Macros) : Nat → Tree Expr
  | 0 => return .missing outOfFuel
  | fuel + 1 => do
    let l ← peek
    match l.token with
    | .op .inc =>
      advance
      return .step true true l.span (← unary macros fuel)
    | .op .dec =>
      advance
      return .step false true l.span (← unary macros fuel)
    | .op op =>
      match unaryOf? op with
      | none => return .missing (← stop (l.unexpected "an expression"))
      | some u =>
        advance
        match u, (← peek).token with
        | .neg, .int n =>
          advance
          return .num (-n)
        | _, _ => return .unary u l.span (← unary macros fuel)
    | _ => postfixed macros fuel

def postfixed (macros : Macros) : Nat → Tree Expr
  | 0 => return .missing outOfFuel
  | fuel + 1 => do
    let e ← primary macros fuel
    postfixRest macros fuel e

def postfixRest (macros : Macros) : Nat → Expr → Tree Expr
  | 0, e => return .cut e outOfFuel
  | fuel + 1, e => do
    let l ← peek
    match l.token with
    | .punct .lBracket =>
      advance
      let sub ← expression macros fuel
      match ← expect (.punct .rBracket) with
      | .ok _ => postfixRest macros fuel (.index e l.span sub)
      | .error err => return .cut (.index e l.span sub) err
    | .op .inc =>
      advance
      postfixRest macros fuel (.step true false l.span e)
    | .op .dec =>
      advance
      postfixRest macros fuel (.step false false l.span e)
    | _ => return e

def primary (macros : Macros) : Nat → Tree Expr
  | 0 => return .missing outOfFuel
  | fuel + 1 => do
    match ← string? macros with
    | some bytes => return .str bytes
    | none =>
      let l ← next
      match l.token with
      | .int n => return .num n
      | .punct .lParen =>
        let e ← expression macros fuel
        match ← expect (.punct .rParen) with
        | .ok _ => return e
        | .error err => return .cut e err
      | .ident name =>
        if ← eat (.punct .lParen) then
          if ← eat (.punct .rParen) then return .call name l.span []
          else return .call name l.span (← arguments macros fuel)
        else
          match macros.lookup name with
          | some (.int n) => return .num n
          | _ => return .name name l.span
      | _ => return .missing (← stop (l.unexpected "an expression"))

def arguments (macros : Macros) : Nat → Tree (List Expr)
  | 0 => return [.missing outOfFuel]
  | fuel + 1 => do
    let arg ← assignment macros fuel
    if ← eat (.punct .rParen) then return [arg]
    match ← expect (.punct .comma) with
    | .ok _ => return arg :: (← arguments macros fuel)
    | .error e => return [arg, .missing e]

end

mutual

def elementList (macros : Macros) : Nat → Tree (List Element)
  | 0 => return [{ opened := {}, value := .missing outOfFuel }]
  | fuel + 1 => do
    match ← expect (.punct .lBrace) with
    | .ok l => elements macros fuel l.span
    | .error e => return [{ opened := {}, value := .missing e }]

def elements (macros : Macros) : Nat → Span → Tree (List Element)
  | 0, opened => return [{ opened := opened, value := .missing outOfFuel }]
  | fuel + 1, opened => do
    if ← eat (.punct .rBrace) then return []
    let found ←
      if (← peek).token == .punct .lBrace then elementList macros fuel
      else do
        let value ← assignment macros fuel
        pure [{ opened := opened, value := value }]
    if ← eat (.punct .comma) then
      return found ++ (← elements macros fuel opened)
    match ← expect (.punct .rBrace) with
    | .ok _ => return found
    | .error e => return found ++ [{ opened := opened, value := .missing e }]

end

def declared (macros : Macros) (fuel : Nat) (d : Declarator) : Tree Declared := do
  if (← peek).token == .punct .lParen then
    modify Cursor.halt
    return .function d
  if !(← eat (.op .assign)) then return .plain d
  if d.dims.isEmpty then return .scalar d (← assignment macros fuel)
  match ← string? macros with
  | some bytes => return .text d bytes
  | none => return .list d (← elementList macros fuel)

def declaredList (macros : Macros) : Nat → Tree (List Declared)
  | 0 => return [.missing outOfFuel]
  | fuel + 1 => do
    match ← attempt (declarator macros) with
    | .error e => return [.missing e]
    | .ok d =>
      let item ← declared macros fuel d
      if ← eat (.punct .comma) then
        return item :: (← declaredList macros fuel)
      match ← expect (.punct .semicolon) with
      | .ok _ => return [item]
      | .error e => return [item, .missing e]

def declaration (macros : Macros) (fuel : Nat) (base : Base) : Tree Stmt :=
  return .declare base (← declaredList macros fuel)

def closed (macros : Macros) (fuel : Nat) (t : Token) : Tree Expr := do
  let e ← expression macros fuel
  match ← expect t with
  | .ok _ => return e
  | .error err => return .cut e err

def ended (s : Stmt) : Tree Stmt := do
  match ← expect (.punct .semicolon) with
  | .ok _ => return s
  | .error e => return .cut s e

/--
A condition in parentheses: the place of the first, the condition, and the error if the second is missing. The
error belongs behind the complaints about the condition.
-/
def condition (macros : Macros) (fuel : Nat) : Tree (Span × Expr × Option Error) := do
  match ← expect (.punct .lParen) with
  | .error e => return ({}, .missing e, none)
  | .ok l =>
    let cond ← expression macros fuel
    match ← expect (.punct .rParen) with
    | .ok _ => return (l.span, cond, none)
    | .error e => return (l.span, cond, some e)

def forInit (macros : Macros) (fuel : Nat) : Tree Stmt := do
  match (← peek).token with
  | .punct .semicolon =>
    advance
    return .empty
  | .word w =>
    match w.base? with
    | some base =>
      advance
      declaration macros fuel base
    | none => return .expr (← closed macros fuel (.punct .semicolon))
  | _ => return .expr (← closed macros fuel (.punct .semicolon))

def forCond (macros : Macros) (fuel : Nat) : Tree (Option Expr × Option Error) := do
  if ← eat (.punct .semicolon) then return (none, none)
  let cond ← expression macros fuel
  match ← expect (.punct .semicolon) with
  | .ok _ => return (some cond, none)
  | .error e => return (some cond, some e)

def forStep (macros : Macros) (fuel : Nat) : Tree (Option Expr) := do
  if ← eat (.punct .rParen) then return none
  return some (← closed macros fuel (.punct .rParen))

def caseLabel (macros : Macros) (span : Span) : Tree Stmt := do
  let value : Read Int32 := do
    let n ← constant macros
    let _ ← Read.expect (.punct .colon)
    return n
  match ← attempt value with
  | .ok n => return .case span n
  | .error e => return .missing e

def defaultLabel (span : Span) : Tree Stmt := do
  match ← expect (.punct .colon) with
  | .ok _ => return .default span
  | .error e => return .missing e

def returned (macros : Macros) (fuel : Nat) (span : Span) : Tree Stmt := do
  if ← eat (.punct .semicolon) then return .ret span none
  ended (.ret span (some (← expression macros fuel)))

mutual

def statement (macros : Macros) : Nat → Tree Stmt
  | 0 => return .missing outOfFuel
  | fuel + 1 => do
    let l ← peek
    match l.token with
    | .punct .lBrace => block macros fuel
    | .punct .semicolon =>
      advance
      return .empty
    | .word w =>
      match w.base? with
      | some base =>
        advance
        declaration macros fuel base
      | none => keyword macros fuel w l
    | _ => return .expr (← closed macros fuel (.punct .semicolon))

def keyword (macros : Macros) : Nat → Word → Lexeme → Tree Stmt
  | 0, _, _ => return .missing outOfFuel
  | fuel + 1, w, l => do
    if w == .elseWord then
      return .missing (← stop (l.unexpected "a statement"))
    advance
    match w with
    | .ifWord =>
      let (opened, cond, err) ← condition macros fuel
      let yes ← body macros fuel err
      if ← eat (.word .elseWord) then
        return .ifElse opened cond yes (← statement macros fuel)
      else
        return .ifThen opened cond yes
    | .whileWord =>
      let (opened, cond, err) ← condition macros fuel
      return .whileLoop opened cond (← body macros fuel err)
    | .doWord =>
      let inner ← statement macros fuel
      match ← expect (.word .whileWord) with
      | .error e => return .doLoop inner {} (.missing e)
      | .ok _ =>
        let (opened, cond, err) ← condition macros fuel
        match err with
        | some e => return .cut (.doLoop inner opened cond) e
        | none => ended (.doLoop inner opened cond)
    | .forWord =>
      match ← expect (.punct .lParen) with
      | .error e => return .missing e
      | .ok p =>
        let init ← forInit macros fuel
        let (cond, err) ← forCond macros fuel
        match err with
        | some e => return .forLoop p.span init cond (some (.missing e)) .empty
        | none =>
          let step ← forStep macros fuel
          return .forLoop p.span init cond step (← statement macros fuel)
    | .switch =>
      let (opened, cond, err) ← condition macros fuel
      return .switch l.span opened cond (← body macros fuel err)
    | .case => caseLabel macros l.span
    | .default => defaultLabel l.span
    | .breakWord => ended (.breakOut l.span)
    | .continueWord => ended (.goOn l.span)
    | _ => returned macros fuel l.span

def body (macros : Macros) : Nat → Option Error → Tree Stmt
  | 0, _ => return .missing outOfFuel
  | _ + 1, some e => return .missing e
  | fuel + 1, none => statement macros fuel

def block (macros : Macros) : Nat → Tree Stmt
  | 0 => return .missing outOfFuel
  | fuel + 1 => do
    match ← expect (.punct .lBrace) with
    | .ok _ => return .block (← statements macros fuel)
    | .error e => return .missing e

def statements (macros : Macros) : Nat → Tree (List Stmt)
  | 0 => return [.missing outOfFuel]
  | fuel + 1 => do
    let l ← peek
    match l.token with
    | .punct .rBrace =>
      advance
      return []
    | .eof => return [.missing (l.unexpected "an expression")]
    | _ =>
      let s ← statement macros fuel
      return s :: (← statements macros fuel)

end

def topDeclaration (macros : Macros) : Read (Option (String × Ty × List Param)) := do
  match ← base? with
  | none => throw ((← Read.next).unexpected "a declaration")
  | some base =>
    let d ← declarator macros
    if !d.dims.isEmpty || (← Read.peek).token != .punct .lParen then
      Read.skipStatement
      return none
    let ps ← params macros
    if ← Read.eat (.punct .semicolon) then return none
    return some (d.name, { base := base, pointer := d.pointer }, ps)

def topLevel (macros : Macros) : Nat → Tree (List TopLevel)
  | 0 => return [.missing outOfFuel]
  | fuel + 1 => do
    let l ← peek
    match l.token with
    | .eof => return []
    | .punct .hash =>
      advance
      let _ ← attempt (Read.restOfLine l.span.line)
      topLevel macros fuel
    | .punct .semicolon =>
      advance
      topLevel macros fuel
    | _ =>
      match ← attempt (topDeclaration macros) with
      | .error e => return [.missing e]
      | .ok none => topLevel macros fuel
      | .ok (some (name, ret, ps)) =>
        let body ← block macros fuel
        return .function name ret ps body :: (← topLevel macros fuel)

end Grammar

def functions (macros : Macros) (c : Cursor) : List TopLevel :=
  (Grammar.topLevel macros (16 * (c.rest.length + 2)) c).1

end Handheld.Source
