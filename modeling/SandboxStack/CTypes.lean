import SandboxStack.WasmCode

namespace SandboxStack.Cc
open Wasm

-- The sizes set_target_lp64 changes.
structure Target where
  longSize : Nat
  ptrSize : Nat
  ldoubleSize : Nat
  deriving DecidableEq, Repr

def ilp32 : Target := ⟨4,4,8⟩
def lp64 : Target := ⟨8,8,16⟩

-- `u` is is_unsigned. TY_LONG is the kind of both long and long long. A struct
-- or union is known by its tag, its size and its alignment.
inductive Ty where
  | void | bool
  | char (u : Bool) | short (u : Bool) | int (u : Bool) | long (u : Bool) | llong (u : Bool)
  | enum
  | float | double | ldouble
  | ptr (base : Ty)
  | func (returnTy : Ty) (params : List Ty) (isVariadic : Bool)
  | array (base : Ty) (len : Nat)
  | vla (base : Ty)
  | struct (tag size align : Nat)
  | union (tag size align : Nat)
  deriving Repr

namespace Ty

def size (T : Target) : Ty → Nat
  | .void | .bool | .char _ | .func _ _ _ => 1
  | .short _ => 2
  | .int _ | .enum | .float => 4
  | .long _ => T.longSize
  | .llong _ | .double => 8
  | .ldouble => T.ldoubleSize
  | .ptr _ | .vla _ => T.ptrSize
  | .array base len => base.size T * len
  | .struct _ size _ | .union _ size _ => size

def isUnsigned : Ty → Bool
  | .char u | .short u | .int u | .long u | .llong u => u
  | .ptr _ => true
  | _ => false

def base : Ty → Option Ty
  | .ptr t | .array t _ | .vla t => some t
  | _ => none

def isInteger : Ty → Bool
  | .bool | .char _ | .short _ | .int _ | .long _ | .llong _ | .enum => true
  | _ => false

def isFlonum : Ty → Bool
  | .float | .double | .ldouble => true
  | _ => false

def isStruct : Ty → Bool
  | .struct _ _ _ | .union _ _ _ => true
  | _ => false

def isPtr : Ty → Bool
  | .ptr _ => true
  | _ => false

def isArray : Ty → Bool
  | .array _ _ => true
  | _ => false

def isFunc : Ty → Bool
  | .func _ _ _ => true
  | _ => false

def isVoid : Ty → Bool
  | .void => true
  | _ => false

def isBool : Ty → Bool
  | .bool => true
  | _ => false

def isVla : Ty → Bool
  | .vla _ => true
  | _ => false

end Ty

def promoted (T : Target) (ty : Ty) : Ty := if ty.size T < 4 then .int false else ty

def getCommonType (T : Target) (ty1 ty2 : Ty) : Ty :=
  match ty1.base with
  | some base => .ptr base
  | none =>
    if ty1.isFunc then .ptr ty1 else
    if ty2.isFunc then .ptr ty2 else
    match ty1,ty2 with
    | .ldouble,_ | _,.ldouble => .ldouble
    | .double,_ | _,.double => .double
    | .float,_ | _,.float => .float
    | _,_ =>
      let ty1 := promoted T ty1
      let ty2 := promoted T ty2
      if ty1.size T ≠ ty2.size T then if ty1.size T < ty2.size T then ty2 else ty1
      else if ty2.isUnsigned then ty2 else ty1

-- `none` is VC_NONE.
def vclass : Option Ty → Option ValueType
  | none => none
  | some ty =>
    match ty with
    | .void => none
    | .float => some .f32
    | .double | .ldouble => some .f64
    | .struct _ _ _ | .union _ _ _ | .array _ _ | .func _ _ _ | .ptr _ | .vla _ => some .i32
    | _ => if ty.size ilp32 = 8 then some .i64 else some .i32

end SandboxStack.Cc
