import SandboxStack.CNodes
import SandboxStack.X86Machine

namespace SandboxStack.Cc.X86
open SandboxStack.X86

abbrev Asm := List Line
abbrev Print := Except String

def ins (i : Instr) : Asm := [.instr i]
def text (t : String) : Asm := [.instr (.text t)]
def rax : Operand := .reg .rax
def rdi : Operand := .reg .rdi
def rdx : Operand := .reg .rdx

def push : Asm := ins (.push .rax)
def pop (r : Reg) : Asm := ins (.pop r)
def pushf : Asm := ins (.alu .sub .quad (.imm 8) (.reg .rsp)) ++ text "movsd %xmm0, (%rsp)"
def popf (n : Nat) : Asm := text ("movsd (%rsp), %xmm" ++ toString n) ++ ins (.alu .add .quad (.imm 8) (.reg .rsp))

-- gen_addr of a variable; `defined` says which functions the program defines.
-- Code is never position independent here, opt_fpic stays false.
def genVarAddr (defined : String → Bool) (ty : Option Ty) (v : Obj) : Asm :=
  if v.ty.isVla then ins (.mov .quad (.mem v.offset .rbp) rax)
  else if v.isLocal then ins (.lea (.mem v.offset .rbp) .rax)
  else if v.isTls then ins (.mov .quad .thread rax) ++ ins (.alu .add .quad (.tpoff v.name) rax)
  else if (ty.map Ty.isFunc).getD false && !defined v.name then text ("mov " ++ v.name ++ "@GOTPCREL(%rip), %rax")
  else ins (.lea (.symbol v.name) .rax)

-- Load a value from where %rax is pointing to.
def load (ty : Ty) : Asm :=
  match ty with
  | .array _ _ | .struct _ _ _ | .union _ _ _ | .func _ _ _ | .vla _ => []
  | .float => text "movss (%rax), %xmm0"
  | .double => text "movsd (%rax), %xmm0"
  | .ldouble => text "fldt (%rax)"
  | _ =>
    match ty.size lp64 with
    | 1 => ins (.extend (!ty.isUnsigned) .byte .long (.mem 0 .rax) .rax)
    | 2 => ins (.extend (!ty.isUnsigned) .word .long (.mem 0 .rax) .rax)
    | 4 => ins (.extend true .long .quad (.mem 0 .rax) .rax)
    | _ => ins (.mov .quad (.mem 0 .rax) rax)

def copyBytes (size : Nat) : Asm :=
  (List.range size).flatMap fun i : Nat => ins (.mov .byte (.mem i .rax) (.reg .r8)) ++ ins (.mov .byte (.reg .r8) (.mem i .rdi))

-- Store %rax to an address that the stack top is pointing to.
def store (ty : Ty) : Asm :=
  pop .rdi ++
  match ty with
  | .struct _ size _ | .union _ size _ => copyBytes size
  | .float => text "movss %xmm0, (%rdi)"
  | .double => text "movsd %xmm0, (%rdi)"
  | .ldouble => text "fstpt (%rdi)"
  | _ =>
    match ty.size lp64 with
    | 1 => ins (.mov .byte rax (.mem 0 .rdi))
    | 2 => ins (.mov .word rax (.mem 0 .rdi))
    | 4 => ins (.mov .long rax (.mem 0 .rdi))
    | _ => ins (.mov .quad rax (.mem 0 .rdi))

def cmpZero (ty : Ty) : Asm :=
  match ty with
  | .float => text "xorps %xmm1, %xmm1" ++ text "ucomiss %xmm1, %xmm0"
  | .double => text "xorpd %xmm1, %xmm1" ++ text "ucomisd %xmm1, %xmm0"
  | .ldouble => text "fldz" ++ text "fucomip" ++ text "fstp %st(0)"
  | _ => if ty.isInteger && ty.size lp64 ≤ 4 then ins (.cmp .long (.imm 0) rax) else ins (.cmp .quad (.imm 0) rax)

inductive TypeId where
  | i8 | i16 | i32 | i64 | u8 | u16 | u32 | u64 | f32 | f64 | f80
  deriving DecidableEq, Repr

-- TY_LONG is the kind of long long too, TY_ENUM has no case of its own.
def getTypeId : Ty → TypeId
  | .char u => if u then .u8 else .i8
  | .short u => if u then .u16 else .i16
  | .int u => if u then .u32 else .i32
  | .long u | .llong u => if u then .u64 else .i64
  | .float => .f32
  | .double => .f64
  | .ldouble => .f80
  | _ => .u64

def i32i8 : Asm := ins (.extend true .byte .long rax .rax)
def i32u8 : Asm := ins (.extend false .byte .long rax .rax)
def i32i16 : Asm := ins (.extend true .word .long rax .rax)
def i32u16 : Asm := ins (.extend false .word .long rax .rax)
def i32i64 : Asm := ins (.extend true .long .quad rax .rax)
def u32i64 : Asm := ins (.mov .long rax rax)

def i32f32 : Asm := text "cvtsi2ssl %eax, %xmm0"
def i32f64 : Asm := text "cvtsi2sdl %eax, %xmm0"
def i32f80 : Asm := text "mov %eax, -4(%rsp); fildl -4(%rsp)"
def u32f32 : Asm := text "mov %eax, %eax; cvtsi2ssq %rax, %xmm0"
def u32f64 : Asm := text "mov %eax, %eax; cvtsi2sdq %rax, %xmm0"
def u32f80 : Asm := text "mov %eax, %eax; mov %rax, -8(%rsp); fildll -8(%rsp)"
def i64f32 : Asm := text "cvtsi2ssq %rax, %xmm0"
def i64f64 : Asm := text "cvtsi2sdq %rax, %xmm0"
def i64f80 : Asm := text "movq %rax, -8(%rsp); fildll -8(%rsp)"
def u64f32 : Asm := text "cvtsi2ssq %rax, %xmm0"
def u64f64 : Asm := text ("test %rax,%rax; js 1f; pxor %xmm0,%xmm0; cvtsi2sd %rax,%xmm0; jmp 2f; " ++
  "1: mov %rax,%rdi; and $1,%eax; pxor %xmm0,%xmm0; shr %rdi; or %rax,%rdi; cvtsi2sd %rdi,%xmm0; addsd %xmm0,%xmm0; 2:")
def u64f80 : Asm := text ("mov %rax, -8(%rsp); fildq -8(%rsp); test %rax, %rax; jns 1f;" ++
  "mov $1602224128, %eax; mov %eax, -4(%rsp); fadds -4(%rsp); 1:")

def fromF32 (t : TypeId) : Asm :=
  match t with
  | .i8 => text "cvttss2sil %xmm0, %eax; movsbl %al, %eax"
  | .u8 => text "cvttss2sil %xmm0, %eax; movzbl %al, %eax"
  | .i16 => text "cvttss2sil %xmm0, %eax; movswl %ax, %eax"
  | .u16 => text "cvttss2sil %xmm0, %eax; movzwl %ax, %eax"
  | .i32 => text "cvttss2sil %xmm0, %eax"
  | .u32 | .i64 | .u64 => text "cvttss2siq %xmm0, %rax"
  | .f32 => []
  | .f64 => text "cvtss2sd %xmm0, %xmm0"
  | .f80 => text "movss %xmm0, -4(%rsp); flds -4(%rsp)"

def fromF64 (t : TypeId) : Asm :=
  match t with
  | .i8 => text "cvttsd2sil %xmm0, %eax; movsbl %al, %eax"
  | .u8 => text "cvttsd2sil %xmm0, %eax; movzbl %al, %eax"
  | .i16 => text "cvttsd2sil %xmm0, %eax; movswl %ax, %eax"
  | .u16 => text "cvttsd2sil %xmm0, %eax; movzwl %ax, %eax"
  | .i32 => text "cvttsd2sil %xmm0, %eax"
  | .u32 | .i64 | .u64 => text "cvttsd2siq %xmm0, %rax"
  | .f32 => text "cvtsd2ss %xmm0, %xmm0"
  | .f64 => []
  | .f80 => text "movsd %xmm0, -8(%rsp); fldl -8(%rsp)"

def fromF80 (convert move : String) : Asm :=
  text ("fnstcw -10(%rsp); movzwl -10(%rsp), %eax; or $12, %ah; mov %ax, -12(%rsp); fldcw -12(%rsp); " ++ convert ++
    " -24(%rsp); fldcw -10(%rsp); " ++ move)

def fromF80To (t : TypeId) : Asm :=
  match t with
  | .i8 => fromF80 "fistps" "movsbl -24(%rsp), %eax"
  | .u8 | .i16 => fromF80 "fistps" "movzbl -24(%rsp), %eax"
  | .u16 => fromF80 "fistpl" "movswl -24(%rsp), %eax"
  | .i32 | .u32 => fromF80 "fistpl" "mov -24(%rsp), %eax"
  | .i64 | .u64 => fromF80 "fistpq" "mov -24(%rsp), %rax"
  | .f32 => text "fstps -8(%rsp); movss -8(%rsp), %xmm0"
  | .f64 => text "fstpl -8(%rsp); movsd -8(%rsp), %xmm0"
  | .f80 => []

-- The table for type casts, a row a source type.
def castTable (source target : TypeId) : Asm :=
  let row (i8 i16 i32 i64 u8 u16 u32 u64 f32 f64 f80 : Asm) : Asm :=
    match target with
    | .i8 => i8 | .i16 => i16 | .i32 => i32 | .i64 => i64 | .u8 => u8 | .u16 => u16 | .u32 => u32 | .u64 => u64
    | .f32 => f32 | .f64 => f64 | .f80 => f80
  match source with
  | .i8 => row [] [] [] i32i64 i32u8 i32u16 [] i32i64 i32f32 i32f64 i32f80
  | .i16 => row i32i8 [] [] i32i64 i32u8 i32u16 [] i32i64 i32f32 i32f64 i32f80
  | .i32 => row i32i8 i32i16 [] i32i64 i32u8 i32u16 [] i32i64 i32f32 i32f64 i32f80
  | .i64 => row i32i8 i32i16 [] [] i32u8 i32u16 [] [] i64f32 i64f64 i64f80
  | .u8 => row i32i8 [] [] i32i64 [] [] [] i32i64 i32f32 i32f64 i32f80
  | .u16 => row i32i8 i32i16 [] i32i64 i32u8 [] [] i32i64 i32f32 i32f64 i32f80
  | .u32 => row i32i8 i32i16 [] u32i64 i32u8 i32u16 [] u32i64 u32f32 u32f64 u32f80
  | .u64 => row i32i8 i32i16 [] [] i32u8 i32u16 [] [] u64f32 u64f64 u64f80
  | .f32 => fromF32 target
  | .f64 => fromF64 target
  | .f80 => fromF80To target

def cast (source target : Ty) : Asm :=
  if target.isVoid then []
  else if target.isBool then cmpZero source ++ ins (.set .ne .rax) ++ ins (.extend false .byte .long rax .rax)
  else castTable (getTypeId source) (getTypeId target)

def genNum (ty : Ty) (n : Number) : Print Asm :=
  match ty with
  | .float => .ok (ins (.mov .long (.imm n.single.toNat) rax) ++ text "movq %rax, %xmm0")
  | .double => .ok (ins (.mov .quad (.imm n.double.toNat) rax) ++ text "movq %rax, %xmm0")
  | .ldouble => .error "long double constant"
  | _ => .ok (ins (.mov .quad (.imm n.val) rax))

def genNeg (ty : Ty) : Asm :=
  match ty with
  | .float => ins (.mov .quad (.imm 1) rax) ++ text "shl $31, %rax" ++ text "movq %rax, %xmm1" ++ text "xorps %xmm1, %xmm0"
  | .double => ins (.mov .quad (.imm 1) rax) ++ text "shl $63, %rax" ++ text "movq %rax, %xmm1" ++ text "xorpd %xmm1, %xmm0"
  | .ldouble => text "fchs"
  | _ => ins (.neg .rax)

-- Comparisons and operators of floats and doubles, the operands in %xmm0 and %xmm1.
def floatBinary (sz : String) (kind : BinaryKind) : Print Asm :=
  let compared (sets : Asm) := text ("ucomi" ++ sz ++ " %xmm0, %xmm1") ++ sets ++ text "and $1, %al" ++ text "movzb %al, %rax"
  match kind with
  | .add => .ok (text ("add" ++ sz ++ " %xmm1, %xmm0"))
  | .sub => .ok (text ("sub" ++ sz ++ " %xmm1, %xmm0"))
  | .mul => .ok (text ("mul" ++ sz ++ " %xmm1, %xmm0"))
  | .div => .ok (text ("div" ++ sz ++ " %xmm1, %xmm0"))
  | .eq => .ok (compared (text "sete %al" ++ text "setnp %dl" ++ text "and %dl, %al"))
  | .ne => .ok (compared (text "setne %al" ++ text "setp %dl" ++ text "or %dl, %al"))
  | .lt => .ok (compared (text "seta %al"))
  | .le => .ok (compared (text "setae %al"))
  | _ => .error "invalid expression"

def longDoubleBinary (kind : BinaryKind) : Print Asm :=
  let compared (sets : Asm) := text "fcomip" ++ text "fstp %st(0)" ++ sets ++ text "movzb %al, %rax"
  match kind with
  | .add => .ok (text "faddp")
  | .sub => .ok (text "fsubrp")
  | .mul => .ok (text "fmulp")
  | .div => .ok (text "fdivrp")
  | .eq => .ok (compared (text "sete %al"))
  | .ne => .ok (compared (text "setne %al"))
  | .lt => .ok (compared (text "seta %al"))
  | .le => .ok (compared (text "setae %al"))
  | _ => .error "invalid expression"

def isLong : Ty → Bool
  | .long _ | .llong _ => true
  | _ => false

def wordOf (lhsTy : Ty) : Width := if isLong lhsTy || lhsTy.base.isSome then .quad else .long

def comparison (unsigned : Bool) : BinaryKind → Condition
  | .eq => .e
  | .ne => .ne
  | .lt => if unsigned then .b else .l
  | _ => if unsigned then .be else .le

def division (unsigned eight : Bool) (w : Width) : Asm :=
  if unsigned then ins (.mov w (.imm 0) rdx) ++ ins (.div false w .rdi)
  else ins (if eight then .cqo else .cdq) ++ ins (.div true w .rdi)

-- The operator with the left operand in %rax and the right one in %rdi.
def intBinary (kind : BinaryKind) (ty lhsTy : Ty) : Print Asm :=
  let w := wordOf lhsTy
  match kind with
  | .add => .ok (ins (.alu .add w rdi rax))
  | .sub => .ok (ins (.alu .sub w rdi rax))
  | .mul => .ok (ins (.alu .imul w rdi rax))
  | .div => .ok (division ty.isUnsigned (lhsTy.size lp64 == 8) w)
  | .mod => .ok (division ty.isUnsigned (lhsTy.size lp64 == 8) w ++ ins (.mov .quad rdx rax))
  | .bitand => .ok (ins (.alu .and w rdi rax))
  | .bitor => .ok (ins (.alu .or w rdi rax))
  | .bitxor => .ok (ins (.alu .xor w rdi rax))
  | .eq | .ne | .lt | .le =>
    .ok (ins (.cmp w rdi rax) ++ ins (.set (comparison lhsTy.isUnsigned kind) .rax) ++ ins (.extend false .byte .quad rax .rax))
  | .shl => .ok (ins (.mov .quad rdi (.reg .rcx)) ++ ins (.shift .shl w .rax))
  | .shr => .ok (ins (.mov .quad rdi (.reg .rcx)) ++ ins (.shift (if lhsTy.isUnsigned then .shr else .sar) w .rax))
  | _ => .error "invalid expression"

-- The code of a node as an address and as a value, from the number count()
-- gives next, and the number it gives afterwards.
abbrev Printed := Nat → Print (Asm × Nat)

structure Generated where
  addr : Printed
  value : Printed

def notLvalue : Printed := fun _ => .error "not an lvalue"

def printed (code : Asm) : Printed := fun k => .ok (code,k)

def followed (first : Printed) (code : Asm) : Printed := fun k => do
  let (a,k) ← first k
  return (a ++ code,k)

def typedNode (ty : Option Ty) : Print Ty :=
  match ty with
  | some ty => .ok ty
  | none => .error "expression without a type"

def genLoaded (ty : Option Ty) (addr : Printed) : Printed := fun k => do
  let ty ← typedNode ty
  followed addr (load ty) k

def genComma (first second : Printed) : Printed := fun k => do
  let (a,k) ← first k
  let (b,k) ← second k
  return (a ++ b,k)

def genAssign (ty : Option Ty) (addr rhs : Printed) : Printed := fun k => do
  let ty ← typedNode ty
  let (a,k) ← addr k
  let (b,k) ← rhs k
  return (a ++ push ++ b ++ store ty,k)

def genCond (testTy : Option Ty) (test yes no : Printed) : Printed := fun c => do
  let (t,k) ← test (c + 1)
  let ty ← typedNode testTy
  let (y,k) ← yes k
  let (n,k) ← no k
  return (t ++ cmpZero ty ++ [.jcc .e ⟨"else",c⟩] ++ y ++ [.jmp ⟨"end",c⟩,.label ⟨"else",c⟩] ++ n ++ [.label ⟨"end",c⟩],k)

-- && and ||: the label the operands leave to, on what, and the two results.
def genLogical (leave : Condition) (stem : String) (stay other : Int) (lhsTy rhsTy : Option Ty) (lhs rhs : Printed) : Printed :=
  fun c => do
    let (l,k) ← lhs (c + 1)
    let lhsTy ← typedNode lhsTy
    let (r,k) ← rhs k
    let rhsTy ← typedNode rhsTy
    return (l ++ cmpZero lhsTy ++ [.jcc leave ⟨stem,c⟩] ++ r ++ cmpZero rhsTy ++ [.jcc leave ⟨stem,c⟩] ++
      ins (.mov .quad (.imm stay) rax) ++ [.jmp ⟨"end",c⟩,.label ⟨stem,c⟩] ++ ins (.mov .quad (.imm other) rax) ++
      [.label ⟨"end",c⟩],k)

def genBinary (kind : BinaryKind) (ty lhsTy : Option Ty) (lhs rhs : Printed) : Printed := fun k => do
  let lhsTy ← typedNode lhsTy
  match lhsTy with
  | .float | .double =>
    let (r,k) ← rhs k
    let (l,k) ← lhs k
    return (r ++ pushf ++ l ++ popf 1 ++ (← floatBinary (match lhsTy with | .float => "ss" | _ => "sd") kind),k)
  | .ldouble =>
    let (l,k) ← lhs k
    let (r,k) ← rhs k
    return (l ++ r ++ (← longDoubleBinary kind),k)
  | _ =>
    let ty ← typedNode ty
    let (r,k) ← rhs k
    let (l,k) ← lhs k
    return (r ++ push ++ l ++ pop .rdi ++ (← intBinary kind ty lhsTy),k)

def genCast (source target : Option Ty) (lhs : Printed) : Printed := fun k => do
  let source ← typedNode source
  let target ← typedNode target
  followed lhs (cast source target) k

def genNot (lhsTy : Option Ty) (lhs : Printed) : Printed := fun k => do
  let lhsTy ← typedNode lhsTy
  followed lhs (cmpZero lhsTy ++ ins (.set .e .rax) ++ ins (.extend false .byte .quad rax .rax)) k

def genNegated (ty : Option Ty) (lhs : Printed) : Printed := fun k => do
  let ty ← typedNode ty
  followed lhs (genNeg ty) k

def genConstant (ty : Option Ty) (n : Number) : Printed := fun k => do
  let ty ← typedNode ty
  return (← genNum ty n,k)

def isStructTy (ty : Option Ty) : Bool := (ty.map Ty.isStruct).getD false

-- Calls and the members that are bitfields are left out.
def generate (defined : String → Bool) : Node → Generated
  | .nullExpr => ⟨notLvalue,printed []⟩
  | .num ty n => ⟨notLvalue,genConstant ty n⟩
  | .var ty v => ⟨printed (genVarAddr defined ty v),genLoaded ty (printed (genVarAddr defined ty v))⟩
  | .memzero v => ⟨notLvalue,printed (ins (.mov .quad (.imm (v.ty.size lp64)) (.reg .rcx)) ++ ins (.lea (.mem v.offset .rbp) .rdi) ++
      ins (.mov .byte (.imm 0) rax) ++ text "rep stosb")⟩
  | .unary .neg ty lhs => ⟨notLvalue,genNegated ty (generate defined lhs).value⟩
  | .unary .not _ lhs => ⟨notLvalue,genNot lhs.ty (generate defined lhs).value⟩
  | .unary .bitnot _ lhs => ⟨notLvalue,followed (generate defined lhs).value (ins (.not .rax))⟩
  | .unary .addr _ lhs => ⟨notLvalue,(generate defined lhs).addr⟩
  | .unary .deref ty lhs => ⟨(generate defined lhs).value,genLoaded ty (generate defined lhs).value⟩
  | .unary .cast ty lhs => ⟨notLvalue,genCast lhs.ty ty (generate defined lhs).value⟩
  | .binary .logand _ lhs rhs =>
    ⟨notLvalue,genLogical .e "false" 1 0 lhs.ty rhs.ty (generate defined lhs).value (generate defined rhs).value⟩
  | .binary .logor _ lhs rhs =>
    ⟨notLvalue,genLogical .ne "true" 0 1 lhs.ty rhs.ty (generate defined lhs).value (generate defined rhs).value⟩
  | .binary .comma _ lhs rhs =>
    ⟨genComma (generate defined lhs).value (generate defined rhs).addr,
     genComma (generate defined lhs).value (generate defined rhs).value⟩
  | .binary .assign ty lhs rhs =>
    let value := genAssign ty (generate defined lhs).addr (generate defined rhs).value
    ⟨if isStructTy ty then value else notLvalue,value⟩
  | .binary kind ty lhs rhs =>
    ⟨notLvalue,genBinary kind ty lhs.ty (generate defined lhs).value (generate defined rhs).value⟩
  | .member ty m lhs =>
    let addr := followed (generate defined lhs).addr (ins (.alu .add .quad (.imm m.offset) rax))
    ⟨addr,if m.isBitfield then fun _ => .error "bitfield" else genLoaded ty addr⟩
  | .cond ty test yes no =>
    let value := genCond test.ty (generate defined test).value (generate defined yes).value (generate defined no).value
    ⟨if isStructTy ty then value else notLvalue,value⟩
  | .funcall _ _ _ _ _ => ⟨notLvalue,fun _ => .error "function call"⟩
  | .unsupported _ => ⟨notLvalue,fun _ => .error "invalid expression"⟩

def genExpr (defined : String → Bool) (n : Node) (k : Nat) : Print (Asm × Nat) := (generate defined n).value k

end SandboxStack.Cc.X86
