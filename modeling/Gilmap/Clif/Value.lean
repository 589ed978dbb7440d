import Gilmap.Ir.Syntax
import Mathlib.Tactic

/-! # Cranelift values, traps and instructions on values

The fragment of Cranelift that `src/jit.rs` emits. Integers are bit vectors; floats are
an arbitrary carrier whose operations are given by `FloatOps`, because the results about
the generated code never depend on what a float operation returns.
-/
namespace Gilmap

/-- The Cranelift types that occur in emitted code. -/
inductive ClTy
  | i8
  | i64
  | f64
  | i64x2
  | f64x2
  deriving DecidableEq, Repr

inductive TrapCode
  | intDivByZero
  | intOvf
  | badToInt
  deriving DecidableEq, Repr

/-- Why a run stops without a result. Only `trap` can happen to verified machine code;
`unassigned` is the IR's own fault for reading a local that has no value yet. -/
inductive Fault
  | trap (code : TrapCode)
  | unassigned (name : String)
  | illTyped
  deriving DecidableEq, Repr

theorem Except.bind_eq_ok {ε α β : Type} {x : Except ε α} {f : α → Except ε β} {b : β} :
    (x >>= f) = .ok b ↔ ∃ a, x = .ok a ∧ f a = .ok b := by
  cases x <;> simp [bind, Except.bind]

theorem mem_of_lookup {α β : Type} [BEq α] [LawfulBEq α] {l : List (α × β)} {a : α} {b : β}
    (h : l.lookup a = some b) : (a, b) ∈ l := by
  obtain ⟨l₁, l₂, rfl, -⟩ := List.lookup_eq_some_iff.mp h
  simp

/-- Integer condition codes. -/
inductive IntCC
  | slt
  | sle
  | sgt
  | sge
  | eq
  | ne
  | ult
  deriving DecidableEq, Repr

/-- Float condition codes. -/
inductive FloatCC
  | lt
  | le
  | gt
  | ge
  | eq
  | ne
  deriving DecidableEq, Repr

inductive IntBin
  | iadd
  | isub
  | imul
  deriving DecidableEq, Repr

inductive FloatBin
  | fadd
  | fsub
  | fmul
  | fdiv
  deriving DecidableEq, Repr

/-- The libm symbols registered with the JIT module. -/
inductive LibmFn
  | sqrt
  | fabs
  | exp
  | log
  | sin
  | cos
  | tan
  | floor
  | ceil
  deriving DecidableEq, Repr

/-- The float unit: everything the emitted code asks of 64-bit floats. -/
structure FloatOps (F : Type) where
  zero : F
  neg : F → F
  bin : FloatBin → F → F → F
  cmp : FloatCC → F → F → Bool
  /-- `fcvt_from_sint.f64` -/
  ofInt : BitVec 64 → F
  /-- `fcvt_to_sint.i64`, which traps on NaN and on values outside the `i64` range. -/
  toInt : F → Except TrapCode (BitVec 64)
  libm : LibmFn → F → F
  pow : F → F → F
  toBits : F → BitVec 64
  ofBits : BitVec 64 → F
  isFinite : F → Bool

/-- The floats of the machine that runs the code. -/
def hostFloats : FloatOps Float where
  zero := 0.0
  neg x := -x
  bin
    | .fadd, x, y => x + y
    | .fsub, x, y => x - y
    | .fmul, x, y => x * y
    | .fdiv, x, y => x / y
  cmp
    | .lt, x, y => decide (x < y)
    | .le, x, y => decide (x ≤ y)
    | .gt, x, y => decide (y < x)
    | .ge, x, y => decide (y ≤ x)
    | .eq, x, y => x == y
    | .ne, x, y => x != y
  ofInt b := Float.ofInt b.toInt
  toInt x :=
    if x.isNaN || decide (x < -9223372036854775808.0) || decide (9223372036854775808.0 ≤ x) then
      .error .badToInt
    else .ok (BitVec.ofInt 64 x.toInt64.toInt)
  libm
    | .sqrt => Float.sqrt
    | .fabs => Float.abs
    | .exp => Float.exp
    | .log => Float.log
    | .sin => Float.sin
    | .cos => Float.cos
    | .tan => Float.tan
    | .floor => Float.floor
    | .ceil => Float.ceil
  pow := Float.pow
  toBits x := x.toBits.toBitVec
  ofBits b := Float.ofBits (UInt64.ofBitVec b)
  isFinite := Float.isFinite

/-- Registers hold floats as their bits. -/
structure FloatOps.BitExact {F : Type} (fl : FloatOps F) : Prop where
  ofBits_toBits : ∀ x, fl.ofBits (fl.toBits x) = x
  toBits_ofBits : ∀ b, fl.toBits (fl.ofBits b) = b

/-- The same floats as bit patterns. -/
def hostFloatBits : FloatOps (BitVec 64) where
  zero := hostFloats.toBits hostFloats.zero
  neg x := hostFloats.toBits (hostFloats.neg (hostFloats.ofBits x))
  bin op x y := hostFloats.toBits (hostFloats.bin op (hostFloats.ofBits x) (hostFloats.ofBits y))
  cmp cc x y := hostFloats.cmp cc (hostFloats.ofBits x) (hostFloats.ofBits y)
  ofInt b := hostFloats.toBits (hostFloats.ofInt b)
  toInt x := hostFloats.toInt (hostFloats.ofBits x)
  libm fn x := hostFloats.toBits (hostFloats.libm fn (hostFloats.ofBits x))
  pow x y := hostFloats.toBits (hostFloats.pow (hostFloats.ofBits x) (hostFloats.ofBits y))
  toBits x := x
  ofBits b := b
  isFinite x := hostFloats.isFinite (hostFloats.ofBits x)

theorem hostFloatBits_bitExact : hostFloatBits.BitExact := ⟨fun _ => rfl, fun _ => rfl⟩

inductive Val (F : Type)
  | i8 (b : BitVec 8)
  | i64 (b : BitVec 64)
  | f64 (x : F)
  | i64x2 (a b : BitVec 64)
  | f64x2 (x y : F)
  deriving DecidableEq, Repr

variable {F : Type}

def Val.ty : Val F → ClTy
  | .i8 _ => .i8
  | .i64 _ => .i64
  | .f64 _ => .f64
  | .i64x2 _ _ => .i64x2
  | .f64x2 _ _ => .f64x2

def IntBin.apply (op : IntBin) {w : ℕ} (a b : BitVec w) : BitVec w :=
  match op with
  | .iadd => a + b
  | .isub => a - b
  | .imul => a * b

def IntCC.holds (cc : IntCC) {w : ℕ} (a b : BitVec w) : Bool :=
  match cc with
  | .slt => a.slt b
  | .sle => a.sle b
  | .sgt => b.slt a
  | .sge => b.sle a
  | .eq => a == b
  | .ne => a != b
  | .ult => a.ult b

/-- The lane a vector comparison writes: all ones or all zeros. -/
def maskOf (b : Bool) : BitVec 64 := if b then BitVec.allOnes 64 else 0

/-- What a scalar comparison writes. -/
def flagOf (b : Bool) : BitVec 8 := if b then 1 else 0

def sdivBits {w : ℕ} (a b : BitVec w) : Except Fault (BitVec w) :=
  if b = 0 then .error (.trap .intDivByZero)
  else if a = BitVec.intMin w ∧ b = BitVec.allOnes w then .error (.trap .intOvf)
  else .ok (a.sdiv b)

def sremBits {w : ℕ} (a b : BitVec w) : Except Fault (BitVec w) :=
  if b = 0 then .error (.trap .intDivByZero) else .ok (a.srem b)

/-- Bits of `x` where the mask is set, bits of `y` elsewhere. -/
def blend {w : ℕ} (c x y : BitVec w) : BitVec w := (c &&& x) ||| (~~~c &&& y)

@[simp] theorem blend_maskOf (b : Bool) (x y : BitVec 64) :
    blend (maskOf b) x y = if b then x else y := by
  cases b
  · simp only [blend, maskOf, Bool.false_eq_true, ↓reduceIte, BitVec.ofNat_eq_ofNat,
      BitVec.zero_and, BitVec.not_zero, BitVec.allOnes_and, BitVec.zero_or]
  · simp only [blend, maskOf, ↓reduceIte, BitVec.allOnes_and, BitVec.not_allOnes,
      BitVec.zero_and, BitVec.or_zero]

namespace Val

def ineg : Val F → Except Fault (Val F)
  | .i8 a => .ok (.i8 (-a))
  | .i64 a => .ok (.i64 (-a))
  | .i64x2 a b => .ok (.i64x2 (-a) (-b))
  | _ => .error .illTyped

def fneg (fl : FloatOps F) : Val F → Except Fault (Val F)
  | .f64 x => .ok (.f64 (fl.neg x))
  | .f64x2 x y => .ok (.f64x2 (fl.neg x) (fl.neg y))
  | _ => .error .illTyped

def intBin (op : IntBin) : Val F → Val F → Except Fault (Val F)
  | .i8 a, .i8 b => .ok (.i8 (op.apply a b))
  | .i64 a, .i64 b => .ok (.i64 (op.apply a b))
  | .i64x2 a a', .i64x2 b b' => .ok (.i64x2 (op.apply a b) (op.apply a' b'))
  | _, _ => .error .illTyped

def floatBin (fl : FloatOps F) (op : FloatBin) : Val F → Val F → Except Fault (Val F)
  | .f64 x, .f64 y => .ok (.f64 (fl.bin op x y))
  | .f64x2 x x', .f64x2 y y' => .ok (.f64x2 (fl.bin op x y) (fl.bin op x' y'))
  | _, _ => .error .illTyped

def sdiv : Val F → Val F → Except Fault (Val F)
  | .i8 a, .i8 b => (sdivBits a b).map .i8
  | .i64 a, .i64 b => (sdivBits a b).map .i64
  | _, _ => .error .illTyped

def srem : Val F → Val F → Except Fault (Val F)
  | .i8 a, .i8 b => (sremBits a b).map .i8
  | .i64 a, .i64 b => (sremBits a b).map .i64
  | _, _ => .error .illTyped

def urem : Val F → Val F → Except Fault (Val F)
  | .i8 a, .i8 b => if b = 0 then .error (.trap .intDivByZero) else .ok (.i8 (a % b))
  | .i64 a, .i64 b => if b = 0 then .error (.trap .intDivByZero) else .ok (.i64 (a % b))
  | _, _ => .error .illTyped

def icmp (cc : IntCC) : Val F → Val F → Except Fault (Val F)
  | .i8 a, .i8 b => .ok (.i8 (flagOf (cc.holds a b)))
  | .i64 a, .i64 b => .ok (.i8 (flagOf (cc.holds a b)))
  | .i64x2 a a', .i64x2 b b' => .ok (.i64x2 (maskOf (cc.holds a b)) (maskOf (cc.holds a' b')))
  | _, _ => .error .illTyped

def fcmp (fl : FloatOps F) (cc : FloatCC) : Val F → Val F → Except Fault (Val F)
  | .f64 x, .f64 y => .ok (.i8 (flagOf (fl.cmp cc x y)))
  | .f64x2 x x', .f64x2 y y' =>
    .ok (.i64x2 (maskOf (fl.cmp cc x y)) (maskOf (fl.cmp cc x' y')))
  | _, _ => .error .illTyped

/-- How `brif` and `select` read their condition. -/
def truthy : Val F → Except Fault Bool
  | .i8 a => .ok (a != 0)
  | .i64 a => .ok (a != 0)
  | _ => .error .illTyped

def select (c x y : Val F) : Except Fault (Val F) :=
  c.truthy.map fun b => if b then x else y

def bitselect (fl : FloatOps F) : Val F → Val F → Val F → Except Fault (Val F)
  | .i8 c, .i8 x, .i8 y => .ok (.i8 (blend c x y))
  | .i64 c, .i64 x, .i64 y => .ok (.i64 (blend c x y))
  | .f64 c, .f64 x, .f64 y =>
    .ok (.f64 (fl.ofBits (blend (fl.toBits c) (fl.toBits x) (fl.toBits y))))
  | .i64x2 c c', .i64x2 x x', .i64x2 y y' => .ok (.i64x2 (blend c x y) (blend c' x' y'))
  | .f64x2 c c', .f64x2 x x', .f64x2 y y' =>
    .ok (.f64x2 (fl.ofBits (blend (fl.toBits c) (fl.toBits x) (fl.toBits y)))
      (fl.ofBits (blend (fl.toBits c') (fl.toBits x') (fl.toBits y'))))
  | _, _, _ => .error .illTyped

def bitcastF64x2 (fl : FloatOps F) : Val F → Except Fault (Val F)
  | .i64x2 a b => .ok (.f64x2 (fl.ofBits a) (fl.ofBits b))
  | .f64x2 x y => .ok (.f64x2 x y)
  | _ => .error .illTyped

def splat : Val F → Except Fault (Val F)
  | .i64 a => .ok (.i64x2 a a)
  | .f64 x => .ok (.f64x2 x x)
  | _ => .error .illTyped

def callLibm (fl : FloatOps F) (fn : LibmFn) : Val F → Except Fault (Val F)
  | .f64 x => .ok (.f64 (fl.libm fn x))
  | _ => .error .illTyped

def callPow (fl : FloatOps F) : Val F → Val F → Except Fault (Val F)
  | .f64 x, .f64 y => .ok (.f64 (fl.pow x y))
  | _, _ => .error .illTyped

/-- Defined on scalars only. -/
def fcvtToSint (fl : FloatOps F) : Val F → Except Fault (Val F)
  | .f64 x => (fl.toInt x).mapError .trap |>.map .i64
  | _ => .error .illTyped

def fcvtFromSint (fl : FloatOps F) : Val F → Except Fault (Val F)
  | .i8 a => .ok (.f64 (fl.ofInt (a.signExtend 64)))
  | .i64 a => .ok (.f64 (fl.ofInt a))
  | .i64x2 a b => .ok (.f64x2 (fl.ofInt a) (fl.ofInt b))
  | _ => .error .illTyped

/-- What a variable reads as where no definition reaches it. -/
def zeroOf (fl : FloatOps F) : ClTy → Val F
  | .i8 => .i8 0
  | .i64 => .i64 0
  | .f64 => .f64 fl.zero
  | .i64x2 => .i64x2 0 0
  | .f64x2 => .f64x2 fl.zero fl.zero

end Val

/-- `cl_type` -/
def clType : Dtype → ClTy
  | .i64 => .i64
  | .f64 => .f64

/-- `cl_vec_type` -/
def clVecType : Dtype → ClTy
  | .i64 => .i64x2
  | .f64 => .f64x2

/-- `SIMD_LANES` -/
def simdLanes : ℕ := 2

end Gilmap
