import JsonSieve.Stmt.Basic

/-!
# Constant conditions

A condition whose outcome is known before any input is read selects its branch at once. `Expr.fold`
evaluates what is constant in a condition; `Stmt.simplified` applies it to every condition of a
statement and keeps only the selected branches.
-/

namespace JsonSieve

def Expr.fold : Expr → Expr
  | .and a b =>
    match a.fold, b.fold with
    | .bool false, _ => .bool false
    | _, .bool false => .bool false
    | .bool true, x => x
    | x, .bool true => x
    | x, y => .and x y
  | .or a b =>
    match a.fold, b.fold with
    | .bool true, _ => .bool true
    | _, .bool true => .bool true
    | .bool false, x => x
    | x, .bool false => x
    | x, y => .or x y
  | .not e =>
    match e.fold with
    | .bool b => .bool !b
    | .not x => x
    | x => .not x
  | .compare c a b =>
    match a.fold, b.fold with
    | .size x, .size y => .bool (c.nat x y)
    | .int x, .int y => .bool (c.word x y)
    | .num x, .num y => .bool (c.real x y)
    | x, y => .compare c x y
  | .isInteger e =>
    match e.fold with
    | .num x => .bool x.isIntegral
    | x => .isInteger x
  | e => e

mutual

def Expr.simplified : Expr → Expr
  | .isInteger e => .isInteger e.simplified
  | .isMultiple e d => .isMultiple e.simplified d
  | .and a b => .and a.simplified b.simplified
  | .or a b => .or a.simplified b.simplified
  | .not e => .not e.simplified
  | .compare c a b => .compare c a.simplified b.simplified
  | .seq s e => .seq s.simplified e.simplified
  | e => e

/-- The statement with constant conditions decided, also in the frames nested in it. The selected
branch of a decided condition stays a sequence of its own. -/
def Stmt.simplified : Stmt → Stmt
  | .ite condition yes no =>
    match condition.simplified.fold with
    | .bool true => .seq [yes.simplified]
    | .bool false => .seq [no.simplified]
    | condition => .ite condition yes.simplified no.simplified
  | .loop id name body => .loop id name body.simplified
  | .seq list => .seq (Stmt.simplifiedAll list)
  | .frame body => .frame body.simplified
  | .splitList id frames => .splitList id (Stmt.simplifiedAll frames)
  | .dispatch m cases otherwise =>
    .dispatch m (Stmt.simplifiedCases cases) otherwise.simplified
  | s => s

def Stmt.simplifiedAll : List Stmt → List Stmt
  | [] => []
  | s :: rest => s.simplified :: Stmt.simplifiedAll rest

def Stmt.simplifiedCases : List (UInt32 × Stmt) → List (UInt32 × Stmt)
  | [] => []
  | (k, s) :: rest => (k, s.simplified) :: Stmt.simplifiedCases rest

end

mutual

def Expr.frames : Expr → Nat
  | .isInteger e => e.frames
  | .isMultiple e _ => e.frames
  | .and a b => a.frames + b.frames
  | .or a b => a.frames + b.frames
  | .not e => e.frames
  | .compare _ a b => a.frames + b.frames
  | .seq s e => s.frames + e.frames
  | _ => 0

def Stmt.frames : Stmt → Nat
  | .ite condition yes no => condition.frames + yes.frames + no.frames
  | .loop _ _ body => body.frames
  | .seq list => Stmt.framesOf list
  | .frame body => 1 + body.frames
  | .splitList _ frames => frames.length + Stmt.framesOf frames
  | .dispatch _ cases otherwise => Stmt.framesOfCases cases + otherwise.frames
  | _ => 0

def Stmt.framesOf : List Stmt → Nat
  | [] => 0
  | s :: rest => s.frames + Stmt.framesOf rest

def Stmt.framesOfCases : List (UInt32 × Stmt) → Nat
  | [] => 0
  | (_, s) :: rest => s.frames + Stmt.framesOfCases rest

end

end JsonSieve
