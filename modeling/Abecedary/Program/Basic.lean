import Abecedary.Operator
import Abecedary.Variable

/-!
# Programs

The syntax tree. An assignment is an expression and yields the value it stores; a program is a
single statement, and sequences are built two statements at a time.
-/

namespace Abecedary

/-- An expression. -/
inductive Expr where
  | var (v : Variable)
  | constant (n : Int64)
  | text (s : String)
  | binary (left : Expr) (op : Operator) (right : Expr)
  | assign (target : Variable) (value : Expr)
deriving DecidableEq

/-- A statement. -/
inductive Stmt where
  | ifThen (condition : Expr) (thenBranch : Stmt)
  | ifElse (condition : Expr) (thenBranch elseBranch : Stmt)
  | whileDo (condition : Expr) (body : Stmt)
  | doWhile (body : Stmt) (condition : Expr)
  | empty
  | seq (first second : Stmt)
  | expr (e : Expr)
deriving DecidableEq

/-- A program. -/
structure Program where
  body : Stmt
deriving DecidableEq

end Abecedary
