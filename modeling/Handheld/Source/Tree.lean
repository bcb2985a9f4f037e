import Handheld.Source.Declarator

/-!
The syntax tree of function bodies. Where a text goes wrong the tree holds the error: in place of a missing part
(`missing`), or behind the last part that could be read (`cut`). So a tree can be built for any text, and its
errors come in the order of reading, between those of the parts before and behind.
-/
namespace Handheld.Source

inductive Unary where
  | neg
  | plus
  | not
  | complement
  | deref
  | address
  deriving DecidableEq, Repr

/-- Expressions. The span of an operator or a name says where to complain about its operands. -/
inductive Expr where
  | missing (e : Error)
  | cut (e : Expr) (err : Error)
  | num (n : Int32)
  | str (bytes : List UInt8)
  | name (name : String) (span : Span)
  | call (name : String) (span : Span) (args : List Expr)
  | index (base : Expr) (span : Span) (sub : Expr)
  | step (up before : Bool) (span : Span) (e : Expr)
  | unary (op : Unary) (span : Span) (e : Expr)
  | binary (op : Binary) (span : Span) (left right : Expr)
  | logic (both : Bool) (span : Span) (left right : Expr)
  | ternary (span : Span) (cond yes no : Expr)
  | assign (span : Span) (left right : Expr)
  | update (op : Binary) (span : Span) (left right : Expr)
  | comma (left right : Expr)
  deriving Repr

structure Element where
  opened : Span
  value : Expr
  deriving Repr

inductive Declared where
  | missing (e : Error)
  | plain (d : Declarator)
  | scalar (d : Declarator) (value : Expr)
  | text (d : Declarator) (bytes : List UInt8)
  | list (d : Declarator) (elements : List Element)
  | function (d : Declarator)
  deriving Repr

inductive Stmt where
  | missing (e : Error)
  | cut (s : Stmt) (err : Error)
  | empty
  | block (body : List Stmt)
  | expr (e : Expr)
  | declare (base : Base) (items : List Declared)
  | ifThen (opened : Span) (cond : Expr) (yes : Stmt)
  | ifElse (opened : Span) (cond : Expr) (yes no : Stmt)
  | whileLoop (opened : Span) (cond : Expr) (body : Stmt)
  | doLoop (body : Stmt) (opened : Span) (cond : Expr)
  | forLoop (opened : Span) (init : Stmt) (cond step : Option Expr) (body : Stmt)
  | switch (span opened : Span) (cond : Expr) (body : Stmt)
  | case (span : Span) (value : Int32)
  | default (span : Span)
  | breakOut (span : Span)
  | goOn (span : Span)
  | ret (span : Span) (value : Option Expr)
  deriving Repr

inductive TopLevel where
  | missing (e : Error)
  | function (name : String) (ret : Ty) (params : List Param) (body : Stmt)
  deriving Repr

end Handheld.Source
