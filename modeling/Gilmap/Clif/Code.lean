import Gilmap.Clif.Value
import Gilmap.Library.SharedMemory

/-! # Emitted functions and the machine that runs them

A function is listed block after block, in the order the blocks are filled. Every value
that `jit.rs` computes is used once or is a bare variable read, so a straight-line run of
instructions is written as the tree whose post-order is the run; values that are used
again (block parameters, loads, loop bounds) are named.

A Cranelift `Variable` is a cell that outlives the iterations of every loop around it: a
read sees the last write on the executed path, and zero before the first one.
-/
namespace Gilmap
open Library

inductive ClExpr (F : Type)
  | value (k : ℕ)
  | useVar (v : ℕ)
  | iconst (n : BitVec 64)
  | f64const (x : F)
  | splat (e : ClExpr F)
  | ineg (e : ClExpr F)
  | fneg (e : ClExpr F)
  | intBin (op : IntBin) (l r : ClExpr F)
  | floatBin (op : FloatBin) (l r : ClExpr F)
  | sdiv (l r : ClExpr F)
  | srem (l r : ClExpr F)
  | urem (l r : ClExpr F)
  | icmp (cc : IntCC) (l r : ClExpr F)
  | fcmp (cc : FloatCC) (l r : ClExpr F)
  | select (c x y : ClExpr F)
  | bitselect (c x y : ClExpr F)
  | bitcastF64x2 (e : ClExpr F)
  | callLibm (fn : LibmFn) (e : ClExpr F)
  | callPow (l r : ClExpr F)
  | fcvtToSint (ty : ClTy) (e : ClExpr F)
  | fcvtFromSint (ty : ClTy) (e : ClExpr F)
  deriving DecidableEq, Repr

inductive Item (F : Type)
  | label (b : ℕ)
  | letVal (k : ℕ) (e : ClExpr F)
  | load (k : ℕ) (ty : ClTy) (addr : ClExpr F)
  | store (e addr : ClExpr F)
  | defVar (v : ℕ) (e : ClExpr F)
  | jump (b : ℕ)
  | brif (c : ClExpr F) (yes no : ℕ)
  | ret
  deriving DecidableEq, Repr

variable {F : Type}

/-! ## Types -/

/-- What `builder.func.dfg` records as the type of the value an instruction defines. -/
def ClExpr.ty (varTys valTys : ℕ → ClTy) : ClExpr F → ClTy
  | .value k => valTys k
  | .useVar v => varTys v
  | .iconst _ => .i64
  | .f64const _ => .f64
  | .splat e => if e.ty varTys valTys = .f64 then .f64x2 else .i64x2
  | .ineg e | .fneg e => e.ty varTys valTys
  | .intBin _ l _ | .floatBin _ l _ | .sdiv l _ | .srem l _ | .urem l _ => l.ty varTys valTys
  | .icmp _ l _ => if l.ty varTys valTys = .i64x2 then .i64x2 else .i8
  | .fcmp _ l _ => if l.ty varTys valTys = .f64x2 then .i64x2 else .i8
  | .select _ x _ => x.ty varTys valTys
  | .bitselect _ x _ => x.ty varTys valTys
  | .bitcastF64x2 _ => .f64x2
  | .callLibm _ _ | .callPow _ _ => .f64
  | .fcvtToSint t _ | .fcvtFromSint t _ => t

/-- The verifier's operand rules. -/
def ClExpr.verify (varTys valTys : ℕ → ClTy) : ClExpr F → Bool
  | .value _ | .useVar _ | .iconst _ | .f64const _ => true
  | .splat e => e.verify varTys valTys && (e.ty varTys valTys ∈ [.i64, .f64])
  | .ineg e => e.verify varTys valTys && (e.ty varTys valTys ∈ [.i8, .i64, .i64x2])
  | .fneg e => e.verify varTys valTys && (e.ty varTys valTys ∈ [.f64, .f64x2])
  | .intBin _ l r | .icmp _ l r =>
    l.verify varTys valTys && r.verify varTys valTys &&
      (l.ty varTys valTys ∈ [.i8, .i64, .i64x2]) && (l.ty varTys valTys = r.ty varTys valTys)
  | .floatBin _ l r | .fcmp _ l r =>
    l.verify varTys valTys && r.verify varTys valTys &&
      (l.ty varTys valTys ∈ [.f64, .f64x2]) && (l.ty varTys valTys = r.ty varTys valTys)
  | .sdiv l r | .srem l r | .urem l r =>
    l.verify varTys valTys && r.verify varTys valTys &&
      (l.ty varTys valTys ∈ [.i8, .i64]) && (l.ty varTys valTys = r.ty varTys valTys)
  | .select c x y =>
    c.verify varTys valTys && x.verify varTys valTys && y.verify varTys valTys &&
      (c.ty varTys valTys ∈ [.i8, .i64]) && (x.ty varTys valTys = y.ty varTys valTys)
  | .bitselect c x y =>
    c.verify varTys valTys && x.verify varTys valTys && y.verify varTys valTys &&
      (c.ty varTys valTys = x.ty varTys valTys) && (x.ty varTys valTys = y.ty varTys valTys)
  | .bitcastF64x2 e => e.verify varTys valTys && (e.ty varTys valTys ∈ [.i64x2, .f64x2])
  | .callLibm _ e => e.verify varTys valTys && (e.ty varTys valTys = .f64)
  | .callPow l r =>
    l.verify varTys valTys && r.verify varTys valTys &&
      (l.ty varTys valTys = .f64) && (r.ty varTys valTys = .f64)
  | .fcvtToSint t e =>
    e.verify varTys valTys && (t = .i64) && (e.ty varTys valTys = .f64)
  | .fcvtFromSint t e =>
    e.verify varTys valTys &&
      ((t = .f64 && e.ty varTys valTys ∈ [.i8, .i64]) || (t = .f64x2 && e.ty varTys valTys = .i64x2))

/-- The verifier on one instruction. A value that a variable or a name is bound to has the
declared type: the frontend has already panicked on any other `defVar`. -/
def Item.verify (varTys valTys : ℕ → ClTy) : Item F → Bool
  | .label _ | .jump _ | .ret => true
  | .letVal k e => e.verify varTys valTys && (e.ty varTys valTys = valTys k)
  | .defVar v e => e.verify varTys valTys && (e.ty varTys valTys = varTys v)
  | .load k ty addr =>
    addr.verify varTys valTys && (addr.ty varTys valTys = .i64) && (ty = valTys k)
  | .store e addr =>
    e.verify varTys valTys && addr.verify varTys valTys && (addr.ty varTys valTys = .i64)
  | .brif c _ _ => c.verify varTys valTys && (c.ty varTys valTys ∈ [.i8, .i64])

/-! ## Evaluation -/

section Eval
variable (fl : FloatOps F) (vars vals : ℕ → Val F)

def ClExpr.eval : ClExpr F → Except Fault (Val F)
  | .value k => .ok (vals k)
  | .useVar v => .ok (vars v)
  | .iconst n => .ok (.i64 n)
  | .f64const x => .ok (.f64 x)
  | .splat e => e.eval >>= Val.splat
  | .ineg e => e.eval >>= Val.ineg
  | .fneg e => e.eval >>= Val.fneg fl
  | .intBin op l r => do (← l.eval).intBin op (← r.eval)
  | .floatBin op l r => do (← l.eval).floatBin fl op (← r.eval)
  | .sdiv l r => do (← l.eval).sdiv (← r.eval)
  | .srem l r => do (← l.eval).srem (← r.eval)
  | .urem l r => do (← l.eval).urem (← r.eval)
  | .icmp cc l r => do (← l.eval).icmp cc (← r.eval)
  | .fcmp cc l r => do (← l.eval).fcmp fl cc (← r.eval)
  | .select c x y => do (← c.eval).select (← x.eval) (← y.eval)
  | .bitselect c x y => do (← c.eval).bitselect fl (← x.eval) (← y.eval)
  | .bitcastF64x2 e => e.eval >>= Val.bitcastF64x2 fl
  | .callLibm fn e => e.eval >>= Val.callLibm fl fn
  | .callPow l r => do (← l.eval).callPow fl (← r.eval)
  | .fcvtToSint _ e => e.eval >>= Val.fcvtToSint fl
  | .fcvtFromSint _ e => e.eval >>= Val.fcvtFromSint fl

end Eval

/-! ## The machine -/

inductive Control (F : Type)
  | at (rest : List (Item F))
  | returned
  | faulted (f : Fault)

/-- The private state of one call of an emitted function. -/
structure Local (F : Type) where
  ctl : Control F
  vars : ℕ → Val F
  vals : ℕ → Val F

/-- Addresses are 64-bit; a cell is one 8-byte slot, named by its first address. -/
abbrev Addr := BitVec 64

abbrev Mem (F : Type) := Addr → Val F

/-- What follows the label of block `b`. -/
def codeAfter (b : ℕ) : List (Item F) → List (Item F)
  | [] => []
  | .label b' :: rest => if b' = b then rest else codeAfter b rest
  | _ :: rest => codeAfter b rest

/-- The slots an access of type `ty` at address `a` touches. -/
def slotsOf (ty : ClTy) (a : Addr) : List Addr :=
  match ty with
  | .i64x2 | .f64x2 => [a, a + 8]
  | _ => [a]

/-- The value a load of type `ty` makes of the slots it read. -/
def packVal (ty : ClTy) : List (Val F) → Except Fault (Val F)
  | [v] => if v.ty = ty then .ok v else .error .illTyped
  | [.i64 a, .i64 b] => if ty = .i64x2 then .ok (.i64x2 a b) else .error .illTyped
  | [.f64 x, .f64 y] => if ty = .f64x2 then .ok (.f64x2 x y) else .error .illTyped
  | _ => .error .illTyped

/-- The slots a store of `v` at address `a` writes. -/
def unpackVal (a : Addr) : Val F → List (Addr × Val F)
  | .i64x2 x y => [(a, .i64 x), (a + 8, .i64 y)]
  | .f64x2 x y => [(a, .f64 x), (a + 8, .f64 y)]
  | v => [(a, v)]

def Local.goto (code : List (Item F)) (l : Local F) (b : ℕ) : Local F :=
  { l with ctl := .at (codeAfter b code) }

def Local.resume (l : Local F) (rest : List (Item F)) : Local F := { l with ctl := .at rest }

def Local.fault (l : Local F) (f : Fault) : Local F := { l with ctl := .faulted f }

def Local.defVar (l : Local F) (v : ℕ) (x : Val F) : Local F :=
  { l with vars := Function.update l.vars v x }

def Local.letVal (l : Local F) (k : ℕ) (x : Val F) : Local F :=
  { l with vals := Function.update l.vals k x }

def Local.eval (fl : FloatOps F) (l : Local F) (e : ClExpr F) : Except Fault (Val F) :=
  e.eval fl l.vars l.vals

def Local.evalAddr (fl : FloatOps F) (l : Local F) (e : ClExpr F) : Except Fault Addr :=
  match l.eval fl e with
  | .ok (.i64 a) => .ok a
  | .ok _ => .error .illTyped
  | .error f => .error f

/-- One instruction. A block never falls through into the next one. -/
def clifNext (fl : FloatOps F) (code : List (Item F)) : Program Addr (Val F) (Local F) := fun l =>
  match l.ctl with
  | .returned | .faulted _ | .at [] | .at (.label _ :: _) => none
  | .at (.letVal k e :: rest) =>
    some <| .tau <| match l.eval fl e with
      | .error f => l.fault f
      | .ok x => (l.letVal k x).resume rest
  | .at (.defVar v e :: rest) =>
    some <| .tau <| match l.eval fl e with
      | .error f => l.fault f
      | .ok x => (l.defVar v x).resume rest
  | .at (.load k ty addr :: rest) =>
    some <| match l.evalAddr fl addr with
      | .error f => .tau (l.fault f)
      | .ok a => .load (slotsOf ty a) fun vs =>
        match packVal ty vs with
        | .error f => l.fault f
        | .ok x => (l.letVal k x).resume rest
  | .at (.store e addr :: rest) =>
    some <| match l.eval fl e, l.evalAddr fl addr with
      | .error f, _ => .tau (l.fault f)
      | .ok _, .error f => .tau (l.fault f)
      | .ok x, .ok a => .store (unpackVal a x) (l.resume rest)
  | .at (.jump b :: _) => some (.tau (l.goto code b))
  | .at (.brif c yes no :: _) =>
    some <| .tau <| match l.eval fl c >>= Val.truthy with
      | .error f => l.fault f
      | .ok t => l.goto code (if t then yes else no)
  | .at (.ret :: _) => some (.tau { l with ctl := .returned })

end Gilmap
