import Gilmap.Ir.Syntax

/-! # The Python function bodies that the walker reads

The part of Python's `ast` module that `gilmap/_jit.py` looks at. Nodes that the walker
only names in an error message keep their class name.
-/
namespace Gilmap

/-- Classes of binary operators. -/
inductive PyBinOp
  | add
  | sub
  | mult
  | div
  | floorDiv
  | mod
  | pow
  | matMult
  | lShift
  | rShift
  | bitOr
  | bitXor
  | bitAnd
  deriving DecidableEq, Repr

inductive PyUnaryOp
  | uSub
  | uAdd
  | not
  | invert
  deriving DecidableEq, Repr

inductive PyCmpOp
  | lt
  | ltE
  | gt
  | gtE
  | eq
  | notEq
  | is
  | isNot
  | isIn
  | notIn
  deriving DecidableEq, Repr

/-- The value of a `Constant`; `other` is any further type, by its name. -/
inductive PyConst (F : Type)
  | bool (value : Bool)
  | int (value : ℤ)
  | float (value : F)
  | str (value : String)
  | other (typeName : String)
  deriving DecidableEq, Repr

inductive PyExpr (F : Type)
  | name (id : String)
  | constant (value : PyConst F)
  | unaryOp (op : PyUnaryOp) (operand : PyExpr F)
  | binOp (left : PyExpr F) (op : PyBinOp) (right : PyExpr F)
  | compare (left : PyExpr F) (ops : List PyCmpOp) (comparators : List (PyExpr F))
  | ifExp (test body orelse : PyExpr F)
  | call (func : PyExpr F) (args : List (PyExpr F)) (keywords : List String)
  | attribute (value : PyExpr F) (attr : String)
  | other (className : String)
  deriving Repr

inductive PyStmt (F : Type)
  | assign (targets : List (PyExpr F)) (value : PyExpr F)
  | augAssign (target : PyExpr F) (op : PyBinOp) (value : PyExpr F)
  | ret (value : Option (PyExpr F))
  | ifStmt (test : PyExpr F) (body orelse : List (PyStmt F))
  | forStmt (target iter : PyExpr F) (body orelse : List (PyStmt F))
  | whileStmt (test : PyExpr F) (body orelse : List (PyStmt F))
  | brk
  | cont
  | exprStmt (value : PyExpr F)
  | other (className : String)
  deriving Repr

/-- The node that `find_fn_node` returns, with the names of `args.args`. -/
inductive FnNode (F : Type)
  | functionDef (params : List String) (body : List (PyStmt F))
  | lambda (params : List String) (body : PyExpr F)
  deriving Repr

variable {F : Type}

def PyBinOp.className : PyBinOp → String
  | .add => "Add"
  | .sub => "Sub"
  | .mult => "Mult"
  | .div => "Div"
  | .floorDiv => "FloorDiv"
  | .mod => "Mod"
  | .pow => "Pow"
  | .matMult => "MatMult"
  | .lShift => "LShift"
  | .rShift => "RShift"
  | .bitOr => "BitOr"
  | .bitXor => "BitXor"
  | .bitAnd => "BitAnd"

def PyUnaryOp.className : PyUnaryOp → String
  | .uSub => "USub"
  | .uAdd => "UAdd"
  | .not => "Not"
  | .invert => "Invert"

def PyConst.typeName : PyConst F → String
  | .bool _ => "bool"
  | .int _ => "int"
  | .float _ => "float"
  | .str _ => "str"
  | .other cls => cls

def PyExpr.className : PyExpr F → String
  | .name _ => "Name"
  | .constant _ => "Constant"
  | .unaryOp _ _ => "UnaryOp"
  | .binOp _ _ _ => "BinOp"
  | .compare _ _ _ => "Compare"
  | .ifExp _ _ _ => "IfExp"
  | .call _ _ _ => "Call"
  | .attribute _ _ => "Attribute"
  | .other cls => cls

def PyStmt.className : PyStmt F → String
  | .assign _ _ => "Assign"
  | .augAssign _ _ _ => "AugAssign"
  | .ret _ => "Return"
  | .ifStmt _ _ _ => "If"
  | .forStmt _ _ _ _ => "For"
  | .whileStmt _ _ _ => "While"
  | .brk => "Break"
  | .cont => "Continue"
  | .exprStmt _ => "Expr"
  | .other cls => cls

/-- The test of `strip_docstring` on the first statement of a body. -/
def PyStmt.isDocstring : PyStmt F → Bool
  | .exprStmt (.constant (.str _)) => true
  | _ => false

end Gilmap
